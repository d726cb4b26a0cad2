import Reckon.Eval
import Reckon.Proofs.Simulation

/-!
# Evaluation without scopes

`Flat.eval` is an interpreter of its own. It knows no tables and no chains of them: an environment
gives every name a value, and a call runs in a copy of the caller's environment that is thrown away
afterwards. `eval_flat` says that evaluation in a scope chain is this interpreter seen through
`Scope.env`, in results, errors and final environments; the shape of the chain, the table that
holds a binding and the zeros that reading leaves behind can therefore not be told from outside.
-/

set_option autoImplicit false

namespace Reckon

/-- What every name stands for. -/
abbrev Env (τ : Type) := String → Value τ

namespace Env

variable {τ : Type}

def set (ρ : Env τ) (name : String) (value : Value τ) : Env τ :=
  fun other => if name = other then value else ρ other

/-- Sets names in order, so that the last value of a repeated name stays. -/
def setAll (ρ : Env τ) (pairs : List (String × Value τ)) : Env τ :=
  pairs.foldl (fun ρ pair => ρ.set pair.1 pair.2) ρ

end Env

/-- What the names stand for in a scope: zero where it says nothing. -/
def Scope.env {τ : Type} (s : Scope τ) : Env τ := fun name => (s.lookup? name).getD .zero

/-- Computations that read and change an environment. -/
abbrev Flat (τ α : Type) := EStateM RuntimeError (Env τ) α

namespace Flat

variable {τ α : Type}

def read (name : String) : Flat τ (Value τ) := do
  let ρ ← get
  pure (ρ name)

def write (name : String) (value : Value τ) : Flat τ Unit := modify fun ρ => ρ.set name value

/-- Runs a computation in a copy of the environment with some names set. Nothing of the copy is
left afterwards, whether the computation fails or not. -/
def inCopy (pairs : List (String × Value τ)) (body : Flat τ α) : Flat τ α := fun ρ =>
  match body (ρ.setAll pairs) with
  | .ok a _ => .ok a ρ
  | .error e _ => .error e ρ

/-- The number that an operand of `op` stands for. -/
def number (op : Operator) (line : Nat) : Value τ → Flat τ Float
  | .number x => pure x
  | .function _ =>
    throw (.typeMismatch s!"operator '{op.symbol}' expects numbers, found a function" line)

/-- The result of an operation. Of all the operators, strict division alone can refuse numbers. -/
def compute (division : Division) (line : Nat) (op : Operator) (x y : Float) : Flat τ Float :=
  match op, division with
  | .add, _ => pure (x + y)
  | .subtract, _ => pure (x - y)
  | .multiply, _ => pure (x * y)
  | .divide, .ieee => pure (x / y)
  | .divide, .strict => if y == 0 then throw (.divisionByZero line) else pure (x / y)

section
variable (settings : Settings)

mutual

/-- The value of an expression inside `depth` active calls. -/
def eval (depth : Nat) : Expr τ → Flat τ (Value τ)
  | .number x _ => pure (.number x)
  | .var name _ => read name
  | .arithmetic op left right line => do
    let x ← number op line (← eval depth left)
    let y ← number op line (← eval depth right)
    let z ← compute settings.division line op x y
    pure (.number z)
  | .assign name value _ => do
    let v ← eval depth value
    write name v
    pure v
  | .function tag params body line => pure (.function ⟨tag, params, body, line⟩)
  | .call name arguments line => do
    match ← read name with
    | .function f =>
      let values ← evalAll depth arguments
      call depth f values line
    | .number _ => throw (.notCallable name line)
termination_by e => (settings.maxCallDepth - depth, sizeOf e)

/-- The values of expressions, from left to right. -/
def evalAll (depth : Nat) : List (Expr τ) → Flat τ (List (Value τ))
  | [] => pure []
  | e :: es => do
    let v ← eval depth e
    let vs ← evalAll depth es
    pure (v :: vs)
termination_by es => (settings.maxCallDepth - depth, sizeOf es)

/-- The value of the last of some expressions, or `last` if there are none. -/
def sequence (depth : Nat) (last : Option (Value τ)) : List (Expr τ) → Flat τ (Option (Value τ))
  | [] => pure last
  | e :: es => do
    let v ← eval depth e
    sequence depth (some v) es
termination_by es => (settings.maxCallDepth - depth, sizeOf es)

/-- The value of a function at the values of its arguments. -/
def call (depth : Nat) (f : Function τ) (values : List (Value τ)) (line : Nat) :
    Flat τ (Value τ) :=
  if values.length ≠ f.params.length then
    throw (.argumentCount f.params.length values.length line)
  else if _h : settings.maxCallDepth ≤ depth then throw (.callDepth settings.maxCallDepth line)
  else do
    match ← inCopy (f.params.zip values) (sequence (depth + 1) none f.body) with
    | some value => pure value
    | none => throw (.emptyBody f.line)
termination_by (settings.maxCallDepth - depth, 0)

end

/-- The value of the last expression of some statements; `last` is the value before them. -/
def statements (depth : Nat) (last : Option (Value τ)) : List (Statement τ) → Flat τ (Value τ)
  | [] => pure (last.getD .zero)
  | s :: program => do
    match ← sequence settings depth none s.expressions with
    | some value => statements depth (some value) program
    | none => statements depth last program

end

end Flat

/-! ## Scopes as environments -/

namespace Scope

variable {τ : Type}

@[simp] theorem env_push (s : Scope τ) : s.push.env = s.env := by
  funext name
  simp [env]

theorem env_write (s : Scope τ) (name : String) (value : Value τ) :
    (s.write name value).env = s.env.set name value := by
  funext other
  simp only [env, Env.set, lookup?_write]
  split <;> rfl

/-- The zero that reading leaves behind is what the name stood for before. -/
@[simp] theorem env_read (s : Scope τ) (name : String) : (s.read name).2.env = s.env := by
  funext other
  simp only [env, lookup?_read]
  split <;> rfl

theorem env_writeAll (s : Scope τ) (pairs : List (String × Value τ)) :
    (s.writeAll pairs).env = s.env.setAll pairs := by
  unfold writeAll Env.setAll
  induction pairs generalizing s with
  | nil => rfl
  | cons pair pairs ih =>
    rw [List.foldl_cons, List.foldl_cons, ih, env_write]

end Scope

/-! ## The simulation -/

namespace Flat

section
variable {τ α : Type}

/-- The machine `m`, inside `depth` calls and the tables `outer`, shows the environment `ρ`. -/
structure Shows (depth : Nat) (outer : List (Table τ)) (m : Machine τ) (ρ : Env τ) : Prop where
  depth : m.callDepth = depth
  outer : m.scope.outer = outer
  env : m.scope.env = ρ

variable {depth : Nat} {outer : List (Table τ)}

theorem simulates_read (name : String) :
    Simulates (Shows depth outer) Eq Eq (Eval.read name) (read name) := by
  rintro m ρ ⟨hd, ho, rfl⟩
  refine .ok ?_ ⟨hd, ?_, ?_⟩
  · exact m.scope.read_fst name
  · exact (m.scope.outer_read name).trans ho
  · exact m.scope.env_read name

theorem simulates_write (name : String) (value : Value τ) :
    Simulates (Shows depth outer) Eq Eq (Eval.write name value) (write name value) := by
  rintro m ρ ⟨hd, ho, rfl⟩
  exact .ok rfl ⟨hd, ho, m.scope.env_write name value⟩

theorem simulates_number (op : Operator) (line : Nat) (value : Value τ) :
    Simulates (Shows depth outer) Eq Eq (MonadExcept.ofExcept (operand op line value))
      (number op line value) := by
  cases value with
  | number x => exact .pure rfl
  | function f =>
    refine .throw (congrArg (RuntimeError.typeMismatch · line) ?_)
    -- the flat text has the name of the type written out
    rw [String.append_assoc]
    rfl

theorem simulates_compute (division : Division) (line : Nat) (op : Operator) (x y : Float) :
    Simulates (Shows depth outer) Eq Eq (MonadExcept.ofExcept (op.apply division line x y))
      (compute division line op x y : Flat τ Float) := by
  cases op with
  | add => exact .pure rfl
  | subtract => exact .pure rfl
  | multiply => exact .pure rfl
  | divide =>
    cases division with
    | ieee =>
      simp only [Operator.apply, compute, reduceCtorEq, and_false, ↓reduceIte]
      exact .pure rfl
    | strict =>
      simp only [Operator.apply, compute, and_true]
      split
      · exact .throw rfl
      · exact .pure rfl

/-- The frame of a call is a copy: leaving it restores the very machine that entered it. -/
theorem simulates_inFrame {pairs : List (String × Value τ)} {p : Eval τ α} {q : Flat τ α}
    (h : ∀ outer, Simulates (Shows (depth + 1) outer) Eq Eq p q) :
    Simulates (Shows depth outer) Eq Eq (Eval.inFrame pairs p) (inCopy pairs q) := by
  rintro m ρ ⟨hd, ho, rfl⟩
  have henter : Shows (depth + 1) (m.scope.locals :: outer)
      ⟨m.scope.push.writeAll pairs, m.callDepth + 1⟩ (m.scope.env.setAll pairs) :=
    ⟨by rw [hd], by rw [Scope.outer_writeAll, ← ho]; rfl,
      by rw [Scope.env_writeAll, Scope.env_push]⟩
  have hleave : ∀ m' ρ', Shows (depth + 1) (m.scope.locals :: outer) m' ρ' →
      Shows depth outer ⟨m'.scope.pop, m'.callDepth - 1⟩ m.scope.env := by
    rintro m' ρ' ⟨hd', ho', -⟩
    -- only the innermost table has changed, and it is given up
    have hpop : m'.scope.pop = m.scope := by
      simp only [Scope.pop, Scope.parent?, ho', Option.getD_some, ← ho]
    exact ⟨by simp [hd'], by rw [hpop, ho], by rw [hpop]⟩
  unfold Eval.inFrame inCopy
  have hr := h _ _ _ henter
  generalize p _ = r, q _ = r' at hr
  cases hr with
  | ok ha hs => exact .ok ha (hleave _ _ hs)
  | error he hs => exact .error he (hleave _ _ hs)

variable {settings : Settings}

/-- Calls by `act`, inside `depth` calls and the tables `outer`, are calls of the flat
interpreter. -/
def Realises (settings : Settings) (depth : Nat) (outer : List (Table τ)) (act : Call τ) : Prop :=
  ∀ f values line, Simulates (Shows depth outer) Eq Eq (act f values line)
    (call settings depth f values line)

mutual

theorem Realises.evalWith {act : Call τ} (hact : Realises settings depth outer act) :
    ∀ e : Expr τ, Simulates (Shows depth outer) Eq Eq (evalWith settings.division act e)
      (eval settings depth e)
  | .number x _ => by
    rw [Reckon.evalWith, eval]
    exact .pure rfl
  | .var name _ => by
    rw [Reckon.evalWith, eval]
    exact simulates_read name
  | .arithmetic op left right line => by
    rw [Reckon.evalWith, eval]
    refine (hact.evalWith left).bind ?_
    intro v v' hv
    subst hv
    refine (simulates_number op line v).bind ?_
    intro x x' hx
    subst hx
    refine (hact.evalWith right).bind ?_
    intro w w' hw
    subst hw
    refine (simulates_number op line w).bind ?_
    intro y y' hy
    subst hy
    refine (simulates_compute settings.division line op x y).bind ?_
    intro z z' hz
    subst hz
    exact .pure rfl
  | .assign name value _ => by
    rw [Reckon.evalWith, eval]
    refine (hact.evalWith value).bind ?_
    intro v v' hv
    subst hv
    refine (simulates_write name v).bind ?_
    intro _ _ h
    subst h
    exact .pure rfl
  | .function tag params body line => by
    rw [Reckon.evalWith, eval]
    exact .pure rfl
  | .call name arguments line => by
    rw [Reckon.evalWith, eval]
    refine (simulates_read name).bind ?_
    intro v v' hv
    subst hv
    cases v with
    | number x => exact .throw rfl
    | function f =>
      refine (hact.evalAllWith arguments).bind ?_
      intro values values' hvalues
      subst hvalues
      exact hact f values line

theorem Realises.evalAllWith {act : Call τ} (hact : Realises settings depth outer act) :
    ∀ es : List (Expr τ), Simulates (Shows depth outer) Eq Eq (evalAllWith settings.division act es)
      (evalAll settings depth es)
  | [] => by
    rw [Reckon.evalAllWith, evalAll]
    exact .pure rfl
  | e :: es => by
    rw [Reckon.evalAllWith, evalAll]
    refine (hact.evalWith e).bind ?_
    intro v v' hv
    subst hv
    refine (hact.evalAllWith es).bind ?_
    intro vs vs' hvs
    subst hvs
    exact .pure rfl

end

/-- The loop over a sequence keeps the value of the last expression. -/
theorem sequence_eq (last : Option (Value τ)) (es : List (Expr τ)) :
    sequence settings depth last es =
      evalAll settings depth es >>= fun vs => pure (vs.getLast?.or last) := by
  induction es generalizing last with
  | nil =>
    rw [sequence, evalAll, pure_bind]
    rfl
  | cons e es ih =>
    rw [sequence, evalAll]
    simp only [ih, bind_assoc, pure_bind]
    refine bind_congr fun v => bind_congr fun vs => ?_
    cases vs with
    | nil => rfl
    | cons w ws => rw [List.getLast?_cons_cons]; simp [List.getLast?_cons]

theorem Realises.evalLastWith {act : Call τ} (hact : Realises settings depth outer act)
    (es : List (Expr τ)) : Simulates (Shows depth outer) Eq Eq
      (evalLastWith settings.division act es) (sequence settings depth none es) := by
  rw [sequence_eq, Reckon.evalLastWith]
  refine (hact.evalAllWith es).bind ?_
  intro vs vs' hvs
  subst hvs
  exact .pure (by simp)

/-- By induction on the number of calls that may still be nested. -/
theorem realises_applyWithin (n : Nat) {depth : Nat} (hn : settings.maxCallDepth - depth = n)
    (outer : List (Table τ)) :
    Realises settings depth outer (Function.applyWithin settings n) := by
  induction n generalizing depth outer with
  | zero =>
    intro f values line
    rw [Function.applyWithin, call]
    by_cases hl : values.length = f.params.length
    · simp only [hl, ↓reduceIte, ne_eq, not_true_eq_false]
      rw [dif_pos (by omega)]
      exact .throw rfl
    · simp only [hl, ↓reduceIte, ne_eq, not_false_eq_true]
      exact .throw rfl
  | succ n ih =>
    intro f values line
    rw [Function.applyWithin, call]
    by_cases hl : values.length = f.params.length
    · simp only [hl, ↓reduceIte, ne_eq, not_true_eq_false]
      rw [dif_neg (by omega)]
      refine (simulates_inFrame fun outer => (ih (by omega) outer).evalLastWith f.body).bind ?_
      intro v v' hv
      subst hv
      cases v with
      | none => exact .throw rfl
      | some value => exact .pure rfl
    · simp only [hl, ↓reduceIte, ne_eq, not_false_eq_true]
      exact .throw rfl

theorem realises_apply (depth : Nat) (outer : List (Table τ)) :
    Realises settings depth outer (Function.apply settings) := by
  intro f values line m ρ hs
  unfold Function.apply
  rw [hs.depth]
  exact realises_applyWithin _ rfl outer f values line m ρ hs

theorem evalAll_append (es fs : List (Expr τ)) :
    evalAll settings depth (es ++ fs) = evalAll settings depth es >>= fun vs =>
      evalAll settings depth fs >>= fun ws => pure (vs ++ ws) := by
  induction es with
  | nil => simp [evalAll]
  | cons e es ih =>
    rw [List.cons_append, evalAll, evalAll, ih]
    simp only [bind_assoc, pure_bind, List.cons_append]

/-- Statements are evaluated as one sequence: an empty statement has no value of its own. -/
theorem statements_eq (last : Option (Value τ)) (program : List (Statement τ)) :
    statements settings depth last program =
      evalAll settings depth (program.flatMap Statement.expressions) >>= fun vs =>
        pure ((vs.getLast?.or last).getD .zero) := by
  induction program generalizing last with
  | nil =>
    rw [statements, List.flatMap_nil, evalAll, pure_bind]
    rfl
  | cons s program ih =>
    rw [statements, List.flatMap_cons, evalAll_append, sequence_eq]
    simp only [bind_assoc, pure_bind]
    refine bind_congr fun vs => ?_
    simp only [List.getLast?_append]
    cases h : vs.getLast? with
    | none => simp [ih]
    | some v => simp [ih]

theorem simulates_evalStatements (program : List (Statement τ)) :
    Simulates (Shows depth outer) Eq Eq (evalStatements settings program)
      (statements settings depth none program) := by
  rw [statements_eq, Reckon.evalStatements, evalSequence, Reckon.evalLastWith, bind_assoc]
  refine ((realises_apply depth outer).evalAllWith _).bind ?_
  intro vs vs' hvs
  subst hvs
  exact .pure (by simp)

/-- What a result looks like from outside: the environment in place of the machine. -/
def seen : EStateM.Result RuntimeError (Machine τ) α → EStateM.Result RuntimeError (Env τ) α
  | .ok a m => .ok a m.scope.env
  | .error e m => .error e m.scope.env

theorem seen_eq {p : Eval τ α} {q : Flat τ α} {m : Machine τ}
    (h : Simulates (Shows m.callDepth m.scope.outer) Eq Eq p q) : seen (p m) = q m.scope.env := by
  have hr := h m m.scope.env ⟨rfl, rfl, rfl⟩
  generalize p m = r, q m.scope.env = r' at hr
  cases hr with
  | ok ha hs => rw [ha, ← hs.env]; rfl
  | error he hs => rw [he, ← hs.env]; rfl

end

end Flat

/-- Evaluation in a scope chain is flat evaluation of what the chain shows: the same values, the
same errors and the same environment afterwards, so that two chains that show the same cannot be
told apart. -/
theorem eval_flat {τ : Type} (settings : Settings) (m : Machine τ) :
    (∀ e : Expr τ, Flat.seen (e.eval settings m) =
      Flat.eval settings m.callDepth e m.scope.env) ∧
    (∀ es : List (Expr τ), Flat.seen (evalSequence settings es m) =
      Flat.sequence settings m.callDepth none es m.scope.env) ∧
    (∀ program : List (Statement τ), Flat.seen (evalStatements settings program m) =
      Flat.statements settings m.callDepth none program m.scope.env) ∧
    ∀ (e : Expr τ) (s : Scope τ), s.env = m.scope.env →
      Flat.seen (e.eval settings { m with scope := s }) = Flat.seen (e.eval settings m) := by
  have heval : ∀ (m : Machine τ) (e : Expr τ), Flat.seen (e.eval settings m) =
      Flat.eval settings m.callDepth e m.scope.env := fun m e =>
    Flat.seen_eq ((Flat.realises_apply m.callDepth m.scope.outer).evalWith e)
  refine ⟨heval m, fun es => ?_, fun program => ?_, fun e s hs => ?_⟩
  · exact Flat.seen_eq ((Flat.realises_apply m.callDepth m.scope.outer).evalLastWith es)
  · exact Flat.seen_eq (Flat.simulates_evalStatements program)
  · rw [heval, heval m, hs]

/-- A binding in the innermost table, and the same binding one table further out. -/
theorem eval_flat_one_table_or_two :
    Scope.env ⟨(∅ : Table Nat).insert "x" (.number 1), []⟩ =
      Scope.env ⟨∅, [(∅ : Table Nat).insert "x" (.number 1)]⟩ ∧
    Flat.seen ((Expr.assign "y" (.var "x" 1) 1).eval {}
        { scope := ⟨(∅ : Table Nat).insert "x" (.number 1), []⟩ }) =
      Flat.seen ((Expr.assign "y" (.var "x" 1) 1).eval {}
        { scope := ⟨∅, [(∅ : Table Nat).insert "x" (.number 1)]⟩ }) := by
  have h : Scope.env ⟨(∅ : Table Nat).insert "x" (.number 1), []⟩ =
      Scope.env ⟨∅, [(∅ : Table Nat).insert "x" (.number 1)]⟩ := by
    funext name
    simp [Scope.env, Scope.lookup?]
  exact ⟨h, (eval_flat {} { scope := ⟨∅, [(∅ : Table Nat).insert "x" (.number 1)]⟩ }).2.2.2 _ _ h⟩

end Reckon
