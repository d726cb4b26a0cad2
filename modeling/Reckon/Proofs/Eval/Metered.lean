import Reckon.Proofs.Eval.Footprint
import Reckon.Proofs.Parse.Height
import Reckon.Proofs.Scope

/-!
# Metered evaluation

`Metered.eval settings n` evaluates with at most `n` evaluations inside one another and gives up
with `Stop.exhausted` when they do not suffice. Each evaluation hands one less to those that it
starts: of its operands, of its arguments, and of the expressions in the body of the function that it
calls.

The bodies of functions are no parts of the call, so that the height of an expression alone does not
bound the nesting. Calls are limited in number instead: where `j` calls may still be entered and no
body is higher than `H`, an expression needs `j * H` beyond its own height (`meets_evalWith`,
`meetsCalls_applyWithin`). That no body is higher than `H` is an invariant of the scope
(`Scope.All (Value.Shallow H)`), which the simulation carries along.
-/

set_option autoImplicit false

namespace Reckon

/-! ## The evaluator -/

/-- Why a metered evaluation has no value. -/
inductive Stop where
  | exhausted
  | failed (error : RuntimeError)

abbrev Metered (τ α : Type) := EStateM Stop (Machine τ) α

/-- A computation that needs no meter. -/
def Eval.metered {τ α : Type} (p : Eval τ α) : Metered τ α := fun m =>
  match p m with
  | .ok a m => .ok a m
  | .error e m => .error (.failed e) m

namespace Metered

section
variable {τ α : Type}

/-- Runs the body of a call in a scope of its own. -/
def inFrame (bindings : List (String × Value τ)) (body : Metered τ α) : Metered τ α := fun m =>
  match body ⟨m.scope.push.writeAll bindings, m.callDepth + 1⟩ with
  | .ok a m => .ok a ⟨m.scope.pop, m.callDepth - 1⟩
  | .error e m => .error e ⟨m.scope.pop, m.callDepth - 1⟩

/-- The value of the last of some expressions, if there is one. -/
def sequence (sub : Expr τ → Metered τ (Value τ)) (es : List (Expr τ)) :
    Metered τ (Option (Value τ)) := do
  let values ← es.mapM sub
  pure values.getLast?

variable (settings : Settings)

/-- A call, with `sub` for the expressions of the body. -/
def call (sub : Expr τ → Metered τ (Value τ)) (f : Function τ) (values : List (Value τ))
    (line : Nat) : Metered τ (Value τ) :=
  if values.length ≠ f.params.length then
    throw (.failed (.argumentCount f.params.length values.length line))
  else do
    let m ← get
    if settings.maxCallDepth ≤ m.callDepth then
      throw (.failed (.callDepth settings.maxCallDepth line))
    else
      match ← inFrame (f.params.zip values) (sequence sub f.body) with
      | some value => pure value
      | none => throw (.failed (.emptyBody f.line))

/-- The value of an expression by at most that many evaluations inside one another. -/
def eval : Nat → Expr τ → Metered τ (Value τ)
  | 0, _ => throw .exhausted
  | _ + 1, .number x _ => pure (.number x)
  | _ + 1, .var name _ => (Eval.read name).metered
  | n + 1, .arithmetic op left right line => do
    let x ← (MonadExcept.ofExcept (operand op line (← eval n left)) : Eval τ Float).metered
    let y ← (MonadExcept.ofExcept (operand op line (← eval n right)) : Eval τ Float).metered
    let z ← (MonadExcept.ofExcept (op.apply settings.division line x y) : Eval τ Float).metered
    pure (.number z)
  | n + 1, .assign name value _ => do
    let v ← eval n value
    (Eval.write name v).metered
    pure v
  | _ + 1, .function tag params body line => pure (.function ⟨tag, params, body, line⟩)
  | n + 1, .call name arguments line => do
    match ← (Eval.read name).metered with
    | .function f =>
      let values ← arguments.mapM (eval n)
      call settings (eval n) f values line
    | .number _ => throw (.failed (.notCallable name line))

/-- The value of the last expression of a program, or zero if there is none. -/
def statements (n : Nat) (program : List (Statement τ)) : Metered τ (Value τ) := do
  let last ← sequence (eval settings n) (program.flatMap Statement.expressions)
  pure (last.getD .zero)

end

end Metered

/-! ## The simulation -/

/-- A function whose body is no higher than `H`, or no function. -/
def Value.Shallow {τ : Type} (H : Nat) : Value τ → Prop
  | .number _ => True
  | .function f => heightAll f.body ≤ H

namespace Metered

section
variable {τ α β : Type} {H d : Nat}

/-- The same machine inside `d` calls, with no higher body than `H` in its scope. -/
structure Steady (H d : Nat) (m m' : Machine τ) : Prop where
  eq : m' = m
  depth : m.callDepth = d
  scope : m.scope.All (Value.Shallow H)

/-- From a steady machine, `q` does not run out and does what `p` does; a result has the property
`P`. -/
abbrev Meets (H d : Nat) (P : α → Prop) (p : Eval τ α) (q : Metered τ α) : Prop :=
  Simulates (Steady H d) (fun e e' => e' = Stop.failed e) (fun a a' => a' = a ∧ P a) p q

theorem Meets.bind {P : α → Prop} {Q : β → Prop} {p : Eval τ α} {q : Metered τ α}
    {f : α → Eval τ β} {g : α → Metered τ β} (h : Meets H d P p q)
    (hf : ∀ a, P a → Meets H d Q (f a) (g a)) : Meets H d Q (p >>= f) (q >>= g) := by
  refine Simulates.bind h fun a a' ha => ?_
  obtain ⟨rfl, ha⟩ := ha
  exact hf a' ha

theorem meets_read (name : String) :
    Meets H d (Value.Shallow H) (Eval.read name : Eval τ (Value τ)) (Eval.read name).metered := by
  intro m m' hm
  obtain ⟨rfl, hd, hs⟩ := hm
  obtain ⟨hv, hs'⟩ := hs.read trivial name
  exact .ok ⟨rfl, hv⟩ ⟨rfl, hd, hs'⟩

theorem meets_write {v : Value τ} (hv : v.Shallow H) (name : String) :
    Meets H d (fun _ => True) (Eval.write name v) (Eval.write name v).metered := by
  intro m m' hm
  obtain ⟨rfl, hd, hs⟩ := hm
  exact .ok ⟨rfl, trivial⟩ ⟨rfl, hd, hs.write hv name⟩

theorem meets_ofExcept (x : Except RuntimeError α) :
    Meets H d (fun _ => True) (MonadExcept.ofExcept x : Eval τ α)
      (MonadExcept.ofExcept x : Eval τ α).metered := by
  intro m m' hm
  obtain rfl := hm.eq
  cases x with
  | ok a => exact .ok ⟨rfl, trivial⟩ hm
  | error e => exact .error rfl hm

theorem meets_get {P : α → Prop} {p : Eval τ α} {q : Machine τ → Metered τ α}
    (h : ∀ m : Machine τ, m.callDepth = d → Meets H d P p (q m)) : Meets H d P p (get >>= q) := by
  intro m m' hm
  obtain rfl := hm.eq
  exact h m' hm.depth m' m' hm

theorem Meets.inFrame {P : α → Prop} {p : Eval τ α} {q : Metered τ α}
    (h : Meets H (d + 1) P p q) {pairs : List (String × Value τ)}
    (hp : ∀ pair ∈ pairs, pair.2.Shallow H) :
    Meets H d P (Eval.inFrame pairs p) (inFrame pairs q) := by
  intro m m' hm
  obtain ⟨rfl, hd, hs⟩ := hm
  have hleave : ∀ n n' : Machine τ, Steady H (d + 1) n n' →
      Steady H d ⟨n.scope.pop, n.callDepth - 1⟩ ⟨n'.scope.pop, n'.callDepth - 1⟩ := by
    intro n n' hn
    obtain ⟨rfl, hnd, hns⟩ := hn
    exact ⟨rfl, by simp [hnd], hns.pop⟩
  have hr := h ⟨m'.scope.push.writeAll pairs, m'.callDepth + 1⟩ _
    ⟨rfl, by rw [hd], hs.push.writeAll hp⟩
  unfold Eval.inFrame Metered.inFrame
  generalize p _ = r, q _ = r' at hr
  cases hr with
  | ok ha hn => exact .ok ha (hleave _ _ hn)
  | error he hn => exact .error he (hleave _ _ hn)

variable {settings : Settings}

/-- With `n` for the expressions of a body, calls by `act` inside `d` calls are metered calls. -/
def MeetsCalls (settings : Settings) (H d n : Nat) (act : Call τ) : Prop :=
  ∀ (f : Function τ) (values : List (Value τ)) (line : Nat), heightAll f.body ≤ H →
    (∀ v ∈ values, v.Shallow H) → Meets H d (Value.Shallow H) (act f values line)
      (call settings (eval settings n) f values line)

variable {k : Nat} {act : Call τ}

mutual

/-- An expression uses up its height on the way to a call, so that `k` are left there. -/
theorem meets_evalWith (hact : ∀ n, k ≤ n → MeetsCalls settings H d n act) :
    ∀ (e : Expr τ) (n : Nat), e.height ≤ H → e.height + k ≤ n →
      Meets H d (Value.Shallow H) (evalWith settings.division act e) (eval settings n e)
  | e, 0, _, hn => by
    have := e.height_pos
    omega
  | .number x _, n + 1, _, _ => by
    rw [evalWith, eval]
    exact .pure ⟨rfl, trivial⟩
  | .var name _, n + 1, _, _ => by
    rw [evalWith, eval]
    exact meets_read name
  | .arithmetic op left right line, n + 1, hH, hn => by
    simp only [Expr.height] at hH hn
    rw [evalWith, eval]
    refine (meets_evalWith hact left n (by omega) (by omega)).bind fun v _ => ?_
    refine (meets_ofExcept _).bind fun x _ => ?_
    refine (meets_evalWith hact right n (by omega) (by omega)).bind fun w _ => ?_
    refine (meets_ofExcept _).bind fun y _ => ?_
    refine (meets_ofExcept _).bind fun z _ => ?_
    exact .pure ⟨rfl, trivial⟩
  | .assign name value _, n + 1, hH, hn => by
    simp only [Expr.height] at hH hn
    rw [evalWith, eval]
    refine (meets_evalWith hact value n (by omega) (by omega)).bind fun v hv => ?_
    refine (meets_write hv name).bind fun _ _ => ?_
    exact .pure ⟨rfl, hv⟩
  | .function tag params body line, n + 1, hH, _ => by
    rw [evalWith, eval]
    rw [Expr.height] at hH
    exact .pure ⟨rfl, Nat.le_of_add_left_le hH⟩
  | .call name arguments line, n + 1, hH, hn => by
    simp only [Expr.height] at hH hn
    rw [evalWith, eval]
    refine (meets_read name).bind fun v hv => ?_
    cases v with
    | number x => exact .throw rfl
    | function f =>
      have harguments := meets_evalAllWith hact arguments n (by omega) (by omega)
      exact harguments.bind fun values hvalues => hact n (by omega) f values line hv hvalues

theorem meets_evalAllWith (hact : ∀ n, k ≤ n → MeetsCalls settings H d n act) :
    ∀ (es : List (Expr τ)) (n : Nat), heightAll es ≤ H → heightAll es + k ≤ n →
      Meets H d (fun vs => ∀ v ∈ vs, v.Shallow H) (evalAllWith settings.division act es)
        (es.mapM (eval settings n))
  | [], n, _, _ => by
    rw [evalAllWith, List.mapM_nil]
    exact .pure ⟨rfl, by simp⟩
  | e :: es, n, hH, hn => by
    simp only [heightAll] at hH hn
    rw [evalAllWith, List.mapM_cons]
    refine (meets_evalWith hact e n (by omega) (by omega)).bind fun v hv => ?_
    refine (meets_evalAllWith hact es n (by omega) (by omega)).bind fun vs hvs => ?_
    exact .pure ⟨rfl, List.forall_mem_cons.2 ⟨hv, hvs⟩⟩

end

theorem meets_evalLastWith (hact : ∀ n, k ≤ n → MeetsCalls settings H d n act)
    {es : List (Expr τ)} {n : Nat} (hH : heightAll es ≤ H) (hn : heightAll es + k ≤ n) :
    Meets H d (fun o => ∀ v ∈ o, v.Shallow H) (evalLastWith settings.division act es)
      (sequence (eval settings n) es) := by
  refine (meets_evalAllWith hact es n hH hn).bind fun vs hvs => ?_
  exact .pure ⟨rfl, fun v hv => hvs v (List.mem_of_getLast? hv)⟩

/-- By induction on the number of calls that may still be nested: each of them runs one body. -/
theorem meetsCalls_applyWithin (j : Nat) {d n : Nat} (hj : settings.maxCallDepth - d = j)
    (hn : j * H ≤ n) : MeetsCalls settings H d n (Function.applyWithin settings j : Call τ) := by
  induction j generalizing d n with
  | zero =>
    intro f values line _ _
    rw [Function.applyWithin, call]
    by_cases hl : values.length = f.params.length
    · rw [if_pos hl, if_neg (not_not_intro hl)]
      refine meets_get fun m hm => ?_
      rw [if_pos (by omega)]
      exact .throw rfl
    · rw [if_neg hl, if_pos hl]
      exact .throw rfl
  | succ j ih =>
    intro f values line hf hvalues
    rw [Function.applyWithin, call]
    by_cases hl : values.length = f.params.length
    · rw [if_pos hl, if_neg (not_not_intro hl)]
      refine meets_get fun m hm => ?_
      rw [if_neg (by omega)]
      rw [Nat.succ_mul] at hn
      have hbody := meets_evalLastWith (d := d + 1) (fun n' hn' => ih (by omega) hn') hf
        (n := n) (by omega)
      have hpairs : ∀ pair ∈ f.params.zip values, pair.2.Shallow H := fun pair hpair =>
        hvalues pair.2 (List.of_mem_zip hpair).2
      refine (hbody.inFrame hpairs).bind fun o ho => ?_
      cases o with
      | some value => exact .pure ⟨rfl, ho value rfl⟩
      | none => exact .throw rfl
    · rw [if_neg hl, if_pos hl]
      exact .throw rfl

theorem meetsCalls_apply {n : Nat} (hn : (settings.maxCallDepth - d) * H ≤ n) :
    MeetsCalls settings H d n (Function.apply settings : Call τ) := by
  intro f values line hf hvalues m m' hm
  unfold Function.apply
  rw [hm.depth]
  exact meetsCalls_applyWithin _ rfl hn f values line hf hvalues m m' hm

/-- A program needs one share of `H` for its own expressions and one for each call that may be
active. -/
theorem meets_evalStatements {program : List (Statement τ)} {n : Nat}
    (hH : heightAll (program.flatMap Statement.expressions) ≤ H)
    (hn : (settings.maxCallDepth - d + 1) * H ≤ n) :
    Meets H d (Value.Shallow H) (evalStatements settings program)
      (statements settings n program) := by
  rw [Nat.succ_mul] at hn
  refine (meets_evalLastWith (fun n' hn' => meetsCalls_apply hn') hH (by omega)).bind
    fun o ho => ?_
  cases o with
  | some value => exact .pure ⟨rfl, ho value rfl⟩
  | none => exact .pure ⟨rfl, trivial⟩

theorem Meets.eq_metered {P : α → Prop} {p : Eval τ α} {q : Metered τ α} {m : Machine τ}
    (h : Meets H m.callDepth P p q) (hs : m.scope.All (Value.Shallow H)) : q m = p.metered m := by
  have hr := h m m ⟨rfl, rfl, hs⟩
  unfold Eval.metered
  generalize p m = r, q m = r' at hr
  cases hr with
  | ok ha hm => rw [ha.1, hm.eq]
  | error he hm => rw [he, hm.eq]

theorem Meets.scope_after {P : α → Prop} {p : Eval τ α} {q : Metered τ α} {m : Machine τ}
    (h : Meets H m.callDepth P p q) (hs : m.scope.All (Value.Shallow H)) :
    (Eval.after p m).scope.All (Value.Shallow H) := by
  have hr := h m m ⟨rfl, rfl, hs⟩
  unfold Eval.after
  generalize p m = r, q m = r' at hr
  cases hr with
  | ok _ hm => exact hm.scope
  | error _ hm => exact hm.scope

end

end Metered

end Reckon
