import Reckon.Proofs.Eval.Footprint

/-!
# The counter of active calls

Calls end as often as they start, also where an evaluation fails: a machine has as many active calls
after an evaluation as before it. An evaluator that has been used is therefore as good as a new one.

`Function.applyCounted` is a call that looks at the counter itself, and that stops with a `fault` when
the counter is to be raised above the limit or lowered below zero. Evaluation with such calls is
evaluation, whatever the fault is (`counter_exact`): the counter never leaves its range. Both results
come from following the two evaluations at one level of calls (`Eval.Keeps`).
-/

set_option autoImplicit false

namespace Reckon

/-! ## Calls with a checked counter -/

namespace Eval

variable {τ α : Type}

/-- Raises the number of active calls, which must stay within the limit. -/
def raise (limit : Nat) (fault : RuntimeError) : Eval τ Unit := fun m =>
  if m.callDepth < limit then .ok () { m with callDepth := m.callDepth + 1 } else .error fault m

/-- Lowers the number of active calls, which must not be zero. -/
def lower (fault : RuntimeError) : Eval τ Unit := fun m =>
  match m.callDepth with
  | 0 => .error fault m
  | depth + 1 => .ok () { m with callDepth := depth }

/-- What a computation in a scope of its own comes to, be it an error. The scope is given up. -/
def inScope (bindings : List (String × Value τ)) (body : Eval τ α) :
    Eval τ (Except RuntimeError α) := fun m =>
  match body { m with scope := m.scope.push.writeAll bindings } with
  | .ok a m => .ok (.ok a) { m with scope := m.scope.pop }
  | .error e m => .ok (.error e) { m with scope := m.scope.pop }

/-- Runs the body of a call in a scope of its own, between two changes of the counter. -/
def inCountedFrame (limit : Nat) (fault : RuntimeError) (bindings : List (String × Value τ))
    (body : Eval τ α) : Eval τ α := do
  raise limit fault
  let result ← inScope bindings body
  lower fault
  MonadExcept.ofExcept result

end Eval

/-- A call under the limit of the settings, by a counter that is looked at in every call and checked
whenever it changes. More than `n` such calls inside one another are a fault as well. -/
def Function.applyCounted {τ : Type} (settings : Settings) (fault : RuntimeError) : Nat → Call τ
  | 0, _, _, _ => throw fault
  | n + 1, f, arguments, line =>
    if arguments.length = f.params.length then do
      let m ← get
      if settings.maxCallDepth ≤ m.callDepth then
        throw (.callDepth settings.maxCallDepth line)
      else
        let body := evalLastWith settings.division (applyCounted settings fault n) f.body
        match ← Eval.inCountedFrame settings.maxCallDepth fault (f.params.zip arguments) body with
        | some value => pure value
        | none => throw (.emptyBody f.line)
    else throw (.argumentCount f.params.length arguments.length line)

/-! ## Requests -/

/-- What an evaluator can be asked for. -/
inductive Request (τ : Type) where
  | expression (e : Expr τ)
  | sequence (es : List (Expr τ))
  | program (statements : List (Statement τ))
  | invocation (f : Function τ) (arguments : List (Expr τ)) (line : Nat)

namespace Request

variable {τ : Type}

/-- The value of what is asked for; only an empty sequence has none. -/
def answer (settings : Settings) : Request τ → Eval τ (Option (Value τ))
  | expression e => some <$> e.eval settings
  | sequence es => evalSequence settings es
  | program statements => some <$> evalStatements settings statements
  | invocation f arguments line => some <$> f.invoke settings arguments line

/-- The value of what is asked for, over a given meaning of calls. -/
def answerWith (division : Division) (call : Call τ) : Request τ → Eval τ (Option (Value τ))
  | expression e => some <$> evalWith division call e
  | sequence es => evalLastWith division call es
  | program statements => do
    let last ← evalLastWith division call (statements.flatMap Statement.expressions)
    pure (some (last.getD .zero))
  | invocation f arguments line => do
    let values ← evalAllWith division call arguments
    some <$> call f values line

theorem answer_eq (settings : Settings) (r : Request τ) :
    r.answer settings = r.answerWith settings.division (Function.apply settings) := by
  cases r with
  | expression e => rfl
  | sequence es => rfl
  | program statements => exact map_bind ..
  | invocation f arguments line => exact map_bind ..

end Request

/-- What one evaluator answers to requests, each in the scope that comes with it. From one request to
the next the evaluator keeps the number of active calls. -/
def answers {τ : Type} (settings : Settings) : Nat → List (Scope τ × Request τ) →
    List (EStateM.Result RuntimeError (Machine τ) (Option (Value τ)))
  | _, [] => []
  | depth, (scope, r) :: steps =>
    r.answer settings ⟨scope, depth⟩ ::
      answers settings (Eval.after (r.answer settings) ⟨scope, depth⟩).callDepth steps

/-! ## Evaluation at one level of calls -/

namespace Eval

section
variable {τ α β : Type} {d : Nat}

/-- The same machine, inside `d` calls. -/
structure Level (d : Nat) (m m' : Machine τ) : Prop where
  eq : m' = m
  depth : m.callDepth = d

/-- From a machine inside `d` calls, `p` and `q` end alike, and inside `d` calls. -/
abbrev Keeps (d : Nat) (p q : Eval τ α) : Prop := Simulates (Level d) Eq Eq p q

theorem Keeps.bind {p q : Eval τ α} {f g : α → Eval τ β} (h : Keeps d p q)
    (k : ∀ a, Keeps d (f a) (g a)) : Keeps d (p >>= f) (q >>= g) := by
  refine Simulates.bind h fun a a' ha => ?_
  subst ha
  exact k a

theorem Keeps.map {p q : Eval τ α} (h : Keeps d p q) (f : α → β) : Keeps d (f <$> p) (f <$> q) := by
  rw [map_eq_pure_bind, map_eq_pure_bind]
  exact h.bind fun _ => .pure rfl

theorem keeps_get {k : Machine τ → Eval τ α} {q : Eval τ α}
    (h : ∀ m, m.callDepth = d → Keeps d (k m) q) : Keeps d (get >>= k) q := by
  intro m m' hm
  obtain rfl := hm.eq
  exact h m' hm.depth m' m' hm

theorem keeps_self {p : Eval τ α} (h : ∀ m, (after p m).callDepth = m.callDepth) :
    Keeps d p p := by
  intro m m' hm
  obtain ⟨rfl, hd⟩ := hm
  have hafter := h m'
  unfold after at hafter
  cases hp : p m' with
  | ok a n =>
    rw [hp] at hafter
    exact .ok rfl ⟨rfl, hafter.trans hd⟩
  | error e n =>
    rw [hp] at hafter
    exact .error rfl ⟨rfl, hafter.trans hd⟩

theorem keeps_read (name : String) : Keeps d (read name : Eval τ (Value τ)) (read name) :=
  keeps_self fun _ => rfl

theorem keeps_write (name : String) (v : Value τ) : Keeps d (write name v) (write name v) :=
  keeps_self fun _ => rfl

theorem keeps_ofExcept (x : Except RuntimeError α) :
    Keeps d (MonadExcept.ofExcept x : Eval τ α) (MonadExcept.ofExcept x) := by
  cases x with
  | ok a => exact .pure rfl
  | error e => exact .throw rfl

theorem Keeps.eq {p q : Eval τ α} {m : Machine τ} (h : Keeps m.callDepth p q) : p m = q m := by
  have hr := h m m ⟨rfl, rfl⟩
  generalize p m = r, q m = r' at hr
  cases hr with
  | ok ha hm => rw [ha, hm.eq]
  | error he hm => rw [he, hm.eq]

theorem Keeps.callDepth_after {p q : Eval τ α} {m : Machine τ} (h : Keeps m.callDepth p q) :
    (after q m).callDepth = m.callDepth := by
  have hr := h m m ⟨rfl, rfl⟩
  unfold after
  generalize p m = r, q m = r' at hr
  cases hr with
  | ok _ hm => rw [hm.eq, hm.depth]
  | error _ hm => rw [hm.eq, hm.depth]

/-- The counter is raised below the limit, and lowering it finds what has been raised. -/
theorem Keeps.inCountedFrame {p q : Eval τ α} (h : Keeps (d + 1) p q) {limit : Nat} (hd : d < limit)
    (fault : RuntimeError) (pairs : List (String × Value τ)) :
    Keeps d (inCountedFrame limit fault pairs p) (inFrame pairs q) := by
  intro m m' hm
  obtain ⟨rfl, hm⟩ := hm
  have hraise : raise limit fault m' = .ok () { m' with callDepth := m'.callDepth + 1 } :=
    if_pos (by omega)
  have hlower : ∀ n : Machine τ, n.callDepth = d + 1 →
      lower fault { n with scope := n.scope.pop } = .ok () ⟨n.scope.pop, n.callDepth - 1⟩ := by
    intro n hn
    rw [lower, hn]
    rfl
  have hr := h ⟨m'.scope.push.writeAll pairs, m'.callDepth + 1⟩ _ ⟨rfl, by rw [hm]⟩
  unfold Eval.inCountedFrame inFrame
  rw [bind_of_ok hraise]
  generalize hp : p _ = r, q _ = r' at hr
  cases hr with
  | @ok a a' n n' ha hn =>
    obtain ⟨rfl, hdepth⟩ := hn
    have hscope : inScope pairs p { m' with callDepth := m'.callDepth + 1 } =
        .ok (.ok a) { n' with scope := n'.scope.pop } := by
      rw [inScope, hp]
    rw [bind_of_ok hscope, bind_of_ok (hlower n' hdepth)]
    exact .ok ha ⟨rfl, by simp [hdepth]⟩
  | @error e e' n n' he hn =>
    obtain ⟨rfl, hdepth⟩ := hn
    have hscope : inScope pairs p { m' with callDepth := m'.callDepth + 1 } =
        .ok (.error e) { n' with scope := n'.scope.pop } := by
      rw [inScope, hp]
    rw [bind_of_ok hscope, bind_of_ok (hlower n' hdepth)]
    exact .error he ⟨rfl, by simp [hdepth]⟩

end

/-! ## Expressions and calls -/

section
variable {τ : Type} {d : Nat} {division : Division} {call call' : Call τ}

/-- Inside `d` calls, the two meanings of calls are the same. -/
def KeepsCalls (d : Nat) (call call' : Call τ) : Prop :=
  ∀ f values line, Keeps d (call f values line) (call' f values line)

mutual

theorem keeps_evalWith (hcall : KeepsCalls d call call') :
    ∀ e : Expr τ, Keeps d (evalWith division call e) (evalWith division call' e)
  | .number x _ => by
    rw [evalWith, evalWith]
    exact .pure rfl
  | .var name _ => by
    rw [evalWith, evalWith]
    exact keeps_read name
  | .arithmetic op left right line => by
    rw [evalWith, evalWith]
    refine (keeps_evalWith hcall left).bind fun v => (keeps_ofExcept _).bind fun x => ?_
    refine (keeps_evalWith hcall right).bind fun w => (keeps_ofExcept _).bind fun y => ?_
    exact (keeps_ofExcept _).bind fun z => .pure rfl
  | .assign name value _ => by
    rw [evalWith, evalWith]
    refine (keeps_evalWith hcall value).bind fun v => ?_
    exact (keeps_write name v).bind fun _ => .pure rfl
  | .function tag params body line => by
    rw [evalWith, evalWith]
    exact .pure rfl
  | .call name arguments line => by
    rw [evalWith, evalWith]
    refine (keeps_read name).bind fun v => ?_
    cases v with
    | number x => exact .throw rfl
    | function f =>
      exact (keeps_evalAllWith hcall arguments).bind fun values => hcall f values line

theorem keeps_evalAllWith (hcall : KeepsCalls d call call') : ∀ es : List (Expr τ),
    Keeps d (evalAllWith division call es) (evalAllWith division call' es)
  | [] => by
    rw [evalAllWith, evalAllWith]
    exact .pure rfl
  | e :: es => by
    rw [evalAllWith, evalAllWith]
    refine (keeps_evalWith hcall e).bind fun v => ?_
    exact (keeps_evalAllWith hcall es).bind fun vs => .pure rfl

end

theorem keeps_evalLastWith (hcall : KeepsCalls d call call') (es : List (Expr τ)) :
    Keeps d (evalLastWith division call es) (evalLastWith division call' es) :=
  (keeps_evalAllWith hcall es).bind fun _ => .pure rfl

theorem keeps_answerWith (hcall : KeepsCalls d call call') (r : Request τ) :
    Keeps d (r.answerWith division call) (r.answerWith division call') := by
  cases r with
  | expression e => exact (keeps_evalWith hcall e).map some
  | sequence es => exact keeps_evalLastWith hcall es
  | program statements => exact (keeps_evalLastWith hcall _).bind fun _ => .pure rfl
  | invocation f arguments line =>
    exact (keeps_evalAllWith hcall arguments).bind fun values => (hcall f values line).map some

end

section
variable {τ : Type} (settings : Settings) (fault : RuntimeError)

/-- By induction on the number of counted calls that may be nested: the counter of the caller says how
many more are allowed. -/
theorem keepsCalls_applyCounted {d n : Nat} (hn : settings.maxCallDepth - d < n) :
    KeepsCalls d (Function.applyCounted settings fault n : Call τ)
      (Function.applyWithin settings (settings.maxCallDepth - d)) := by
  induction n generalizing d with
  | zero => omega
  | succ n ih =>
    intro f values line
    rw [Function.applyCounted]
    by_cases hl : values.length = f.params.length
    · rw [if_pos hl]
      refine keeps_get fun m hm => ?_
      by_cases hlimit : settings.maxCallDepth ≤ d
      · rw [if_pos (by omega), Nat.sub_eq_zero_of_le hlimit, Function.applyWithin, if_pos hl]
        exact .throw rfl
      · obtain ⟨j, hj⟩ : ∃ j, settings.maxCallDepth - d = j + 1 :=
          ⟨settings.maxCallDepth - (d + 1), by omega⟩
        rw [if_neg (by omega), hj, Function.applyWithin, if_pos hl]
        have hcalls := @ih (d + 1) (by omega)
        rw [show settings.maxCallDepth - (d + 1) = j by omega] at hcalls
        refine ((keeps_evalLastWith hcalls f.body).inCountedFrame (Nat.lt_of_not_le hlimit) fault
          _).bind fun o => ?_
        cases o with
        | some value => exact .pure rfl
        | none => exact .throw rfl
    · have hmismatch : f.applyWithin settings (settings.maxCallDepth - d) values line =
          throw (.argumentCount f.params.length values.length line) := by
        cases settings.maxCallDepth - d <;> rw [Function.applyWithin, if_neg hl]
      rw [if_neg hl, hmismatch]
      exact .throw rfl

theorem keepsCalls_apply {d n : Nat} (hn : settings.maxCallDepth - d < n) :
    KeepsCalls d (Function.applyCounted settings fault n : Call τ) (Function.apply settings) := by
  intro f values line m m' hm
  obtain rfl := hm.eq
  unfold Function.apply
  rw [hm.depth]
  exact keepsCalls_applyCounted settings fault hn f values line m' m' hm

theorem keeps_answer (r : Request τ) {d n : Nat} (hn : settings.maxCallDepth - d < n) :
    Keeps d (r.answerWith settings.division (Function.applyCounted settings fault n))
      (r.answer settings) := by
  rw [r.answer_eq]
  exact keeps_answerWith (keepsCalls_apply settings fault hn) r

end

end Eval

theorem callDepth_answer {τ : Type} (settings : Settings) (r : Request τ) (m : Machine τ) :
    (Eval.after (r.answer settings) m).callDepth = m.callDepth :=
  (Eval.keeps_answer settings (.emptyBody 0) r (Nat.lt_succ_self _)).callDepth_after

theorem answers_eq_map {τ : Type} (settings : Settings) (depth : Nat)
    (steps : List (Scope τ × Request τ)) :
    answers settings depth steps = steps.map fun step => step.2.answer settings ⟨step.1, depth⟩ := by
  induction steps with
  | nil => rfl
  | cons step steps ih => rw [answers, callDepth_answer, ih, List.map_cons]

/-- Whatever an evaluator is asked for, and whether it fails or not: it has as many active calls
afterwards as before; it never raises the counter of calls above the limit and never lowers it below
zero, since a fault there would be the answer; and it answers each of a row of requests as a new
evaluator does. -/
theorem counter_exact {τ : Type} (settings : Settings) :
    (∀ (r : Request τ) (m : Machine τ),
      (Eval.after (r.answer settings) m).callDepth = m.callDepth) ∧
    (∀ (r : Request τ) (m : Machine τ) (fault : RuntimeError) (n : Nat),
      settings.maxCallDepth - m.callDepth < n →
        r.answerWith settings.division (Function.applyCounted settings fault n) m =
          r.answer settings m) ∧
    ∀ steps : List (Scope τ × Request τ),
      answers settings 0 steps = steps.map fun step => step.2.answer settings { scope := step.1 } :=
  ⟨callDepth_answer settings, fun r _ fault _ hn => (Eval.keeps_answer settings fault r hn).eq,
    answers_eq_map settings 0⟩

/-- A function that calls itself runs into the limit, from where the counter gets back to zero. -/
theorem counter_exact_recursion :
    let f : Function Nat := ⟨0, [], [.call "f" [] 1], 1⟩
    let s : Scope Nat := (Scope.empty).write "f" (.function f)
    (Request.expression (.call "f" [] 2)).answerWith .ieee
        (Function.applyCounted ⟨256, 3, .ieee⟩ (.emptyBody 0) 4) { scope := s } =
      .error (.callDepth 3 1) { scope := s } := by
  intro f s
  have hlimit : (Request.expression (.call "f" [] 2)).answer ⟨256, 3, .ieee⟩ { scope := s } =
      .error (.callDepth 3 1) { scope := s } := rfl
  rw [← hlimit]
  exact (counter_exact ⟨256, 3, .ieee⟩).2.1 _ { scope := s } (.emptyBody 0) 4 (by decide)

end Reckon
