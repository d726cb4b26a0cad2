import Reckon.Proofs.Parse.Limit
import Reckon.Proofs.Session.Compose

/-!
# Settings as guards

Tighter settings never lead to another result: a run under them ends as it does under the looser
ones, or gives up with the error of a guard that is tighter (`Session.run_tighter`). The parser and
the evaluator are followed in two copies, which go together until a guard trips; from there on
nothing looks at the error any more.
-/

set_option autoImplicit false

namespace Reckon

/-- The settings `c` allow no more than `c'` do. -/
structure Settings.Tighter (c c' : Settings) : Prop where
  nesting : c.maxNestingDepth ≤ c'.maxNestingDepth
  calls : c.maxCallDepth ≤ c'.maxCallDepth
  division : c.division = c'.division ∨ c.division = .strict ∧ c'.division = .ieee

/-- The errors by which `c` may end a program that goes on under `c'`. -/
inductive RuntimeError.IsGuard (c c' : Settings) : RuntimeError → Prop
  | callDepth (line : Nat) : IsGuard c c' (.callDepth c.maxCallDepth line)
  | divisionByZero (line : Nat) :
      c.division = .strict → c'.division = .ieee → IsGuard c c' (.divisionByZero line)

/-! ## Evaluation -/

namespace Eval

section
variable {τ α : Type} {E : RuntimeError → Prop} {c c' : Settings}

theorem guarded_apply (h : c.Tighter c') (op : Operator) (line : Nat) (x y : Float) :
    Guarded (RuntimeError.IsGuard c c')
      (MonadExcept.ofExcept (op.apply c.division line x y) : Eval τ Float)
      (MonadExcept.ofExcept (op.apply c'.division line x y)) := by
  rcases h.division with heq | ⟨hstrict, hieee⟩
  · rw [heq]
    exact .refl _
  cases op with
  | divide =>
    rw [Operator.apply, Operator.apply, hieee]
    by_cases hy : y == 0 ∧ c.division = .strict
    · rw [if_pos hy]
      exact .throw (.divisionByZero line hstrict hieee)
    · rw [if_neg hy, if_neg (by simp)]
      exact .refl _
  | _ => exact .refl _

theorem guarded_inFrame {p q : Eval τ α} (h : Guarded E p q) (pairs : List (String × Value τ)) :
    Guarded E (inFrame pairs p) (inFrame pairs q) := by
  intro m
  unfold inFrame
  rcases h ⟨m.scope.push.writeAll pairs, m.callDepth + 1⟩ with heq | ⟨e, m', he, herr⟩
  · rw [heq]
    exact .inl rfl
  · rw [herr]
    exact .inr ⟨e, _, he, rfl⟩

/-- Calls by `call` are calls by `call'` under the guards of `c`. -/
def GuardedCalls (c c' : Settings) (call call' : Call τ) : Prop :=
  ∀ f values line, Guarded (RuntimeError.IsGuard c c') (call f values line) (call' f values line)

variable {call call' : Call τ}

mutual

theorem guarded_evalWith (h : c.Tighter c') (hcall : GuardedCalls c c' call call') :
    ∀ e : Expr τ, Guarded (RuntimeError.IsGuard c c') (evalWith c.division call e)
      (evalWith c'.division call' e)
  | .number x _ => by
    rw [evalWith, evalWith]
    exact .refl _
  | .var name _ => by
    rw [evalWith, evalWith]
    exact .refl _
  | .arithmetic op left right line => by
    rw [evalWith, evalWith]
    refine (guarded_evalWith h hcall left).bind fun v => (Guarded.refl _).bind fun x => ?_
    refine (guarded_evalWith h hcall right).bind fun w => (Guarded.refl _).bind fun y => ?_
    exact (guarded_apply h op line x y).bind fun z => .refl _
  | .assign name value _ => by
    rw [evalWith, evalWith]
    exact (guarded_evalWith h hcall value).bind fun v => .refl _
  | .function tag params body line => by
    rw [evalWith, evalWith]
    exact .refl _
  | .call name arguments line => by
    rw [evalWith, evalWith]
    refine (Guarded.refl _).bind fun v => ?_
    cases v with
    | number x => exact .refl _
    | function f =>
      exact (guarded_evalAllWith h hcall arguments).bind fun values => hcall f values line

theorem guarded_evalAllWith (h : c.Tighter c') (hcall : GuardedCalls c c' call call') :
    ∀ es : List (Expr τ), Guarded (RuntimeError.IsGuard c c') (evalAllWith c.division call es)
      (evalAllWith c'.division call' es)
  | [] => by
    rw [evalAllWith, evalAllWith]
    exact .refl _
  | e :: es => by
    rw [evalAllWith, evalAllWith]
    refine (guarded_evalWith h hcall e).bind fun v => ?_
    exact (guarded_evalAllWith h hcall es).bind fun vs => .refl _

end

theorem guarded_evalLastWith (h : c.Tighter c') (hcall : GuardedCalls c c' call call')
    (es : List (Expr τ)) : Guarded (RuntimeError.IsGuard c c') (evalLastWith c.division call es)
      (evalLastWith c'.division call' es) :=
  (guarded_evalAllWith h hcall es).bind fun _ => .refl _

/-- By induction on the number of calls that `c` allows: where it allows none, its guard trips. -/
theorem guardedCalls_applyWithin (h : c.Tighter c') {n n' : Nat} (hn : n ≤ n') :
    GuardedCalls c c' (Function.applyWithin c n : Call τ) (Function.applyWithin c' n') := by
  induction n generalizing n' with
  | zero =>
    intro f values line
    by_cases hl : values.length = f.params.length
    · rw [Function.applyWithin, if_pos hl]
      exact .throw (.callDepth line)
    · have hn' : f.applyWithin c' n' values line =
          throw (.argumentCount f.params.length values.length line) := by
        cases n' <;> rw [Function.applyWithin, if_neg hl]
      rw [Function.applyWithin, if_neg hl, hn']
      exact .refl _
  | succ n ih =>
    obtain ⟨n', rfl⟩ : ∃ k, n' = k + 1 := ⟨n' - 1, by omega⟩
    intro f values line
    rw [Function.applyWithin, Function.applyWithin]
    split
    · have hbody := guarded_evalLastWith h (ih (Nat.le_of_succ_le_succ hn)) f.body
      exact (guarded_inFrame hbody _).bind fun _ => .refl _
    · exact .refl _

theorem guarded_evalStatements (h : c.Tighter c') (program : List (Statement τ)) :
    Guarded (RuntimeError.IsGuard c c') (evalStatements c program) (evalStatements c' program) := by
  have hcall : GuardedCalls c c' (Function.apply c : Call τ) (Function.apply c') :=
    fun f values line m =>
      guardedCalls_applyWithin h (Nat.sub_le_sub_right h.calls m.callDepth) f values line m
  exact (guarded_evalLastWith h hcall _).bind fun _ => .refl _

end

end Eval

/-! ## Sessions -/

namespace Session

variable {c c' : Settings}

theorem execute_tighter (h : c.Tighter c') (scope : Scope Nat) (next : Nat)
    (program : List (Statement Unit)) :
    (Session.execute ⟨c, scope, next⟩ program).1 = (Session.execute ⟨c', scope, next⟩ program).1 ∧
        (Session.execute ⟨c, scope, next⟩ program).2 =
          { (Session.execute ⟨c', scope, next⟩ program).2 with settings := c } ∨
      ∃ e, RuntimeError.IsGuard c c' e ∧
        (Session.execute ⟨c, scope, next⟩ program).1 = .error e := by
  rw [execute_eq, execute_eq]
  rcases Eval.guarded_evalStatements h (numbered program next).1 { scope := scope } with
    heq | ⟨e, m, he, herr⟩
  · simp only [heq]
    split
    · exact .inl ⟨rfl, rfl⟩
    · exact .inl ⟨rfl, rfl⟩
  · simp only [herr]
    exact .inr ⟨e, he, rfl⟩

/-- A run under tighter settings has the outcome of the run under looser ones and leaves the same
scope, or it fails: at the nesting limit, before anything is evaluated; at the call limit; or at a
division by zero, if that is an error under the tighter settings only. -/
theorem run_tighter (h : c.Tighter c') (scope : Scope Nat) (next : Nat) (source : String) :
    let r := Session.run ⟨c, scope, next⟩ source
    let r' := Session.run ⟨c', scope, next⟩ source
    (r.1 = r'.1 ∧ r.2 = { r'.2 with settings := c }) ∨
      (∃ line, r.1 = .error (.syntaxError (.nestingTooDeep c.maxNestingDepth line)) ∧
        r.2.scope = scope) ∨
      (∃ line, r.1 = .error (.runtimeError (.callDepth c.maxCallDepth line))) ∨
      (c.division = .strict ∧ c'.division = .ieee ∧
        ∃ line, r.1 = .error (.runtimeError (.divisionByZero line))) := by
  intro r r'
  rcases parse_limit h.nesting source with hparse | ⟨line, hparse⟩
  · cases hp : parse c'.maxNestingDepth source with
    | error e =>
      have hr : r = (.error (.syntaxError e), ⟨c, scope, next⟩) := run_of_error (hparse.trans hp)
      have hr' : r' = (.error (.syntaxError e), ⟨c', scope, next⟩) := run_of_error hp
      rw [hr, hr']
      exact .inl ⟨rfl, rfl⟩
    | ok program =>
      have hr : r = Session.perform ⟨c, scope, next⟩ program := run_of_ok (hparse.trans hp)
      have hr' : r' = Session.perform ⟨c', scope, next⟩ program := run_of_ok hp
      rw [hr, hr']
      simp only [perform]
      rcases execute_tighter h scope next program with ⟨houtcome, hsession⟩ | ⟨e, he, herr⟩
      · exact .inl ⟨by rw [houtcome], hsession⟩
      · rw [herr]
        cases he with
        | callDepth line => exact .inr (.inr (.inl ⟨line, rfl⟩))
        | divisionByZero line hstrict hieee =>
          exact .inr (.inr (.inr ⟨hstrict, hieee, line, rfl⟩))
  · have hr : r = (.error (.syntaxError (.nestingTooDeep c.maxNestingDepth line)),
        ⟨c, scope, next⟩) := run_of_error hparse
    rw [hr]
    exact .inr (.inl ⟨line, rfl, rfl⟩)

/-- Settings that the program just fits in, and the usual ones. -/
theorem run_tighter_identity :
    Settings.Tighter ⟨4, 1, .strict⟩ {} ∧
      (Session.run ⟨⟨4, 1, .strict⟩, .empty, 0⟩ "f=fun(x)->x end.f(y).").1 =
        (Session.run ⟨{}, .empty, 0⟩ "f=fun(x)->x end.f(y).").1 := by
  have h : Settings.Tighter ⟨4, 1, .strict⟩ {} := ⟨by decide, by decide, .inr ⟨rfl, rfl⟩⟩
  have hok : (Session.run ⟨⟨4, 1, .strict⟩, .empty, 0⟩ "f=fun(x)->x end.f(y).").1 =
      .ok (.number 0) := by decide +kernel
  rcases run_tighter h .empty 0 "f=fun(x)->x end.f(y)." with
    ⟨heq, -⟩ | ⟨line, herr, -⟩ | ⟨line, herr⟩ | ⟨-, -, line, herr⟩
  · exact ⟨h, heq⟩
  · cases hok.symm.trans herr
  · cases hok.symm.trans herr
  · cases hok.symm.trans herr

end Session

end Reckon
