import Reckon.Proofs.Eval.Flat
import Reckon.Proofs.Eval.Footprint

/-!
# Evaluation again

An expression that assigns nothing in the scope of its evaluation can be evaluated again: the second
evaluation comes to the same value or the same error and leaves everything as the first one has left
it (`eval_again`). What the first evaluation has left are zeros of names that were bound nowhere
(`Scope.Vivified`), and its own reads find them the second time.

`Eval.Repeats` says this of every part of an evaluation, for machines that have grown further than
the part itself has left them, since the parts behind it leave zeros as well. Calls leave nothing, and
cannot tell a zero that is bound from one that is not (`Eval.repeats_of_flat`).
-/

set_option autoImplicit false

namespace Reckon

variable {τ : Type}

/-! ## Scopes with more zeros -/

/-- Names that were bound nowhere have become zeros of the innermost table. -/
def Scope.Vivified (s s' : Scope τ) : Prop := ∃ names, s.Footprint [] names s'

namespace Scope.Vivified

variable {s s₁ s₂ : Scope τ}

theorem refl (s : Scope τ) : s.Vivified s := ⟨[], .refl [] [] s⟩

theorem trans (h : s.Vivified s₁) (h' : s₁.Vivified s₂) : s.Vivified s₂ := by
  obtain ⟨R, hR⟩ := h
  obtain ⟨R', hR'⟩ := h'
  exact ⟨R ++ R', (hR.mono (by simp) (by simp)).trans (hR'.mono (by simp) (by simp))⟩

theorem read (s : Scope τ) (name : String) : s.Vivified (s.read name).2 := ⟨[name], .read s name⟩

/-- What a name is bound to stays; a name that becomes bound is a zero. -/
theorem lookup?_eq (h : s.Vivified s₁) (name : String) :
    s₁.lookup? name = s.lookup? name ∨ s.lookup? name = none ∧ s₁.lookup? name = some .zero := by
  obtain ⟨R, hR⟩ := h
  cases hv : s.getLocal? name with
  | some v =>
    have hv₁ := hR.kept name v (by simp) hv
    refine .inl ?_
    rw [lookup?_of_getLocal?_eq_some hv, lookup?_of_getLocal?_eq_some hv₁]
  | none =>
    cases hv₁ : s₁.getLocal? name with
    | none =>
      refine .inl ?_
      rw [lookup?_of_getLocal?_eq_none hv, lookup?_of_getLocal?_eq_none hv₁, hR.outer]
    | some v =>
      rcases hR.fresh name v hv hv₁ with hin | ⟨-, rfl, hnone⟩
      · cases hin
      · exact .inr ⟨hnone, lookup?_of_getLocal?_eq_some hv₁⟩

theorem lookup?_of_some (h : s.Vivified s₁) {name : String} {v : Value τ}
    (hv : s.lookup? name = some v) : s₁.lookup? name = some v := by
  rcases h.lookup?_eq name with heq | ⟨hnone, -⟩
  · rw [heq, hv]
  · rw [hv] at hnone
    cases hnone

theorem env_eq (h : s.Vivified s₁) : s₁.env = s.env := by
  funext name
  unfold Scope.env
  rcases h.lookup?_eq name with heq | ⟨hnone, hzero⟩
  · rw [heq]
  · rw [hnone, hzero]
    rfl

end Scope.Vivified

/-- The same number of calls, and a scope with more zeros. -/
structure Machine.Grown (m m' : Machine τ) : Prop where
  depth : m'.callDepth = m.callDepth
  scope : m.scope.Vivified m'.scope

namespace Machine.Grown

variable {m m₁ m₂ : Machine τ}

theorem refl (m : Machine τ) : m.Grown m := ⟨rfl, .refl m.scope⟩

theorem trans (h : m.Grown m₁) (h' : m₁.Grown m₂) : m.Grown m₂ :=
  ⟨h'.depth.trans h.depth, h.scope.trans h'.scope⟩

end Machine.Grown

/-! ## The parts of the evaluator -/

namespace Eval

variable {α β : Type}

/-- The same value or error, in another machine. -/
def endingIn (m : Machine τ) :
    EStateM.Result RuntimeError (Machine τ) α → EStateM.Result RuntimeError (Machine τ) α
  | .ok a _ => .ok a m
  | .error e _ => .error e m

theorem endingIn_after (p : Eval τ α) (m : Machine τ) : endingIn (after p m) (p m) = p m := by
  unfold after
  cases p m <;> rfl

/-- Results that look the same are the same but for the machine. -/
theorem endingIn_congr {r r' : EStateM.Result RuntimeError (Machine τ) α}
    (h : Flat.seen r = Flat.seen r') (m : Machine τ) : endingIn m r = endingIn m r' := by
  cases r with
  | ok a n =>
    cases r' with
    | ok a' n' =>
      obtain ⟨rfl, -⟩ := EStateM.Result.ok.inj h
      rfl
    | error e' n' => cases h
  | error e n =>
    cases r' with
    | ok a' n' => cases h
    | error e' n' =>
      obtain ⟨rfl, -⟩ := EStateM.Result.error.inj h
      rfl

/-- The computation leaves nothing but zeros behind, and from any machine that has grown from the
one it leaves, it ends as before and changes nothing. -/
structure Repeats (p : Eval τ α) : Prop where
  grows : ∀ m : Machine τ, m.Grown (after p m)
  again : ∀ m m', (after p m).Grown m' → p m' = endingIn m' (p m)

theorem Repeats.eq {p : Eval τ α} (h : Repeats p) (m : Machine τ) : p (after p m) = p m := by
  rw [h.again m _ (.refl _), endingIn_after]

theorem repeats_pure (a : α) : Repeats (pure a : Eval τ α) :=
  ⟨fun m => .refl m, fun _ _ _ => rfl⟩

theorem repeats_throw (e : RuntimeError) : Repeats (throw e : Eval τ α) :=
  ⟨fun m => .refl m, fun _ _ _ => rfl⟩

theorem repeats_ofExcept (x : Except RuntimeError α) :
    Repeats (MonadExcept.ofExcept x : Eval τ α) := by
  cases x with
  | ok a => exact repeats_pure a
  | error e => exact repeats_throw e

/-- The name has been bound by the first reading, if not before. -/
theorem repeats_read (name : String) : Repeats (read name : Eval τ (Value τ)) := by
  refine ⟨fun m => ⟨rfl, .read m.scope name⟩, fun m m' hm => ?_⟩
  have hbound : (m.scope.read name).2.lookup? name = some (m.scope.read name).1 := by
    rw [Scope.lookup?_read, if_pos rfl, Scope.read_fst]
  have hbound' : m'.scope.lookup? name = some (m.scope.read name).1 :=
    hm.scope.lookup?_of_some hbound
  have hread : m'.scope.read name = ((m.scope.read name).1, m'.scope) := by
    rw [Scope.read, hbound']
  unfold read
  rw [hread]
  rfl

theorem Repeats.bind {p : Eval τ α} {f : α → Eval τ β} (h : Repeats p)
    (k : ∀ a, Repeats (f a)) : Repeats (p >>= f) := by
  constructor
  · intro m
    have hp := h.grows m
    cases hr : p m with
    | ok a m₁ =>
      rw [after, hr] at hp
      rw [after_bind_of_ok hr]
      exact hp.trans ((k a).grows m₁)
    | error e m₁ =>
      rw [after, hr] at hp
      rw [after_bind_of_error hr]
      exact hp
  · intro m m' hm
    have hagain := h.again m m'
    cases hr : p m with
    | ok a m₁ =>
      rw [after, hr] at hagain
      rw [after_bind_of_ok hr] at hm
      -- what follows has grown the machine further
      rw [bind_of_ok hr, bind_of_ok (hagain (((k a).grows m₁).trans hm))]
      exact (k a).again m₁ m' hm
    | error e m₁ =>
      rw [after, hr] at hagain
      rw [after_bind_of_error hr] at hm
      rw [bind_of_error hr, bind_of_error (hagain hm)]
      rfl

theorem callDepth_of_flat {p : Eval τ α} {q : Flat τ α} {m : Machine τ}
    (h : Simulates (Flat.Shows m.callDepth m.scope.outer) Eq Eq p q) :
    (after p m).callDepth = m.callDepth := by
  have hr := h m m.scope.env ⟨rfl, rfl, rfl⟩
  unfold after
  generalize p m = r, q _ = r' at hr
  cases hr with
  | ok _ hs => exact hs.depth
  | error _ hs => exact hs.depth

/-- A computation that changes nothing in the scope and sees no more of it than the environment. -/
theorem repeats_of_flat {p : Eval τ α} {q : Nat → Flat τ α} (hstill : Still p)
    (hflat : ∀ depth outer, Simulates (Flat.Shows depth outer) Eq Eq p (q depth)) : Repeats p := by
  have hafter : ∀ m, after p m = m := fun m =>
    congrArg₂ Machine.mk (hstill m) (callDepth_of_flat (hflat m.callDepth m.scope.outer))
  refine ⟨fun m => (hafter m).symm ▸ .refl m, fun m m' hm => ?_⟩
  rw [hafter] at hm
  -- the two machines show one environment
  have hseen : Flat.seen (p m') = Flat.seen (p m) := by
    rw [Flat.seen_eq (hflat m'.callDepth m'.scope.outer),
      Flat.seen_eq (hflat m.callDepth m.scope.outer), hm.depth, hm.scope.env_eq]
  calc p m' = endingIn (after p m') (p m') := (endingIn_after p m').symm
    _ = endingIn m' (p m') := by rw [hafter]
    _ = endingIn m' (p m) := endingIn_congr hseen m'

end Eval

/-! ## Expressions -/

namespace Eval

section
variable {division : Division} {call : Call τ}

mutual

theorem repeats_evalWith (hcall : ∀ f values line, Repeats (call f values line)) :
    ∀ e : Expr τ, e.targets = [] → Repeats (evalWith division call e)
  | .number x _, _ => by
    rw [evalWith]
    exact repeats_pure _
  | .var name _, _ => by
    rw [evalWith]
    exact repeats_read name
  | .arithmetic op left right line, h => by
    rw [Expr.targets, List.append_eq_nil_iff] at h
    rw [evalWith]
    refine (repeats_evalWith hcall left h.1).bind fun v => (repeats_ofExcept _).bind fun x => ?_
    refine (repeats_evalWith hcall right h.2).bind fun w => (repeats_ofExcept _).bind fun y => ?_
    exact (repeats_ofExcept _).bind fun z => repeats_pure _
  | .assign .., h => by cases h
  | .function tag params body line, _ => by
    rw [evalWith]
    exact repeats_pure _
  | .call name arguments line, h => by
    rw [Expr.targets] at h
    rw [evalWith]
    refine (repeats_read name).bind fun v => ?_
    cases v with
    | number x => exact repeats_throw _
    | function f =>
      exact (repeats_evalAllWith hcall arguments h).bind fun values => hcall f values line

theorem repeats_evalAllWith (hcall : ∀ f values line, Repeats (call f values line)) :
    ∀ es : List (Expr τ), targetsAll es = [] → Repeats (evalAllWith division call es)
  | [], _ => by
    rw [evalAllWith]
    exact repeats_pure _
  | e :: es, h => by
    rw [targetsAll, List.append_eq_nil_iff] at h
    rw [evalAllWith]
    refine (repeats_evalWith hcall e h.1).bind fun v => ?_
    exact (repeats_evalAllWith hcall es h.2).bind fun vs => repeats_pure _

end

end

/-- The body of a call may assign what it wants. -/
theorem repeats_apply (settings : Settings) (f : Function τ) (values : List (Value τ)) (line : Nat) :
    Repeats (f.apply settings values line) :=
  repeats_of_flat (stillCalls_apply settings f values line) fun depth outer =>
    Flat.realises_apply depth outer f values line

end Eval

/-- An expression that assigns nothing outside of function bodies comes to the same value or the same
error when it is evaluated again, and leaves the machine as the first evaluation has left it. -/
theorem eval_again (settings : Settings) {e : Expr τ} (h : e.targets = []) (m : Machine τ) :
    e.eval settings (Eval.after (e.eval settings) m) = e.eval settings m :=
  (Eval.repeats_evalWith (Eval.repeats_apply settings) e h).eq m

/-- An evaluation that fails on its way has left two zeros, one of them for the name that it wants to
call. -/
theorem eval_again_not_callable :
    let e : Expr Nat := .arithmetic .add (.var "y" 1) (.call "h" [.var "z" 2] 2) 1
    let m : Machine Nat := { scope := .empty }
    let m' : Machine Nat := { scope := (Scope.empty.write "y" .zero).write "h" .zero }
    e.targets = [] ∧ e.eval {} m = .error (.notCallable "h" 2) m' ∧
      e.eval {} m' = .error (.notCallable "h" 2) m' := by
  intro e m m'
  have hfirst : e.eval {} m = .error (.notCallable "h" 2) m' := by cbv
  have hagain : e.eval {} (Eval.after (e.eval {}) m) = e.eval {} m := eval_again {} rfl m
  refine ⟨rfl, hfirst, ?_⟩
  rw [Eval.after, hfirst] at hagain
  exact hagain

end Reckon
