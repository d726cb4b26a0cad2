import Mathlib.Data.List.Forall2

/-!
# Runs and simulations

How a sequence of computations ends follows from how its parts end (`bind_of_ok`,
`bind_eq_ok_iff`, `bind_eq_of`).

`Simulates S E A p q`: started in states related by `S`, the computations `p` and `q` both give
results, related by `A`, or both fail, with errors related by `E`; the states that they leave are
related by `S` again. Simulation is compatible with sequencing (`Simulates.bind`), so that it is
proved of a whole interpreter by following its text.

`Guarded E p q`: the computation `p` ends as `q` does from the same state, or gives up on the way
with an error of `E`. This too is compatible with sequencing (`Guarded.bind`).
-/

set_option autoImplicit false

namespace Reckon

instance decidableEqResult {ε σ α : Type} [DecidableEq ε] [DecidableEq σ] [DecidableEq α] :
    DecidableEq (EStateM.Result ε σ α)
  | .ok a s, .ok a' s' => decidable_of_iff (a = a' ∧ s = s') (by simp)
  | .error e s, .error e' s' => decidable_of_iff (e = e' ∧ s = s') (by simp)
  | .ok _ _, .error _ _ => isFalse nofun
  | .error _ _, .ok _ _ => isFalse nofun

section
variable {ε σ α β : Type} {p q : EStateM ε σ α} {f g : α → EStateM ε σ β} {s s' t : σ} {a : α}
  {b : β} {e : ε}

theorem bind_of_ok (h : p s = .ok a s') : (p >>= f) s = f a s' := by
  show EStateM.bind p f s = _
  rw [EStateM.bind, h]

theorem bind_of_error (h : p s = .error e s') : (p >>= f) s = .error e s' := by
  show EStateM.bind p f s = _
  rw [EStateM.bind, h]

theorem bind_eq_ok_iff :
    (p >>= f) s = .ok b t ↔ ∃ a s', p s = .ok a s' ∧ f a s' = .ok b t := by
  constructor
  · intro h
    cases hp : p s with
    | ok a s' =>
      rw [bind_of_ok hp] at h
      exact ⟨a, s', rfl, h⟩
    | error e s' => rw [bind_of_error hp] at h; cases h
  · rintro ⟨a, s', hp, hf⟩
    rw [bind_of_ok hp, hf]

/-- Two sequences end alike if their first parts do, and their second parts wherever the first ones
lead. -/
theorem bind_eq_of (h : p s = q s) (k : ∀ a s', p s = .ok a s' → f a s' = g a s') :
    (p >>= f) s = (q >>= g) s := by
  cases hp : p s with
  | ok a s' => rw [bind_of_ok hp, bind_of_ok (h ▸ hp), k a s' hp]
  | error e s' => rw [bind_of_error hp, bind_of_error (h ▸ hp)]

end

section
variable {ε ε' σ σ' α α' β β' : Type}

/-- Two results of the same kind, with related contents and related states. -/
inductive EndsAlike (S : σ → σ' → Prop) (E : ε → ε' → Prop) (A : α → α' → Prop) :
    EStateM.Result ε σ α → EStateM.Result ε' σ' α' → Prop
  | ok {a : α} {a' : α'} {s : σ} {s' : σ'} : A a a' → S s s' → EndsAlike S E A (.ok a s) (.ok a' s')
  | error {e : ε} {e' : ε'} {s : σ} {s' : σ'} :
      E e e' → S s s' → EndsAlike S E A (.error e s) (.error e' s')

theorem EndsAlike.imp {S T : σ → σ' → Prop} {E F : ε → ε' → Prop} {A B : α → α' → Prop}
    {r : EStateM.Result ε σ α} {r' : EStateM.Result ε' σ' α'} (h : EndsAlike S E A r r')
    (hS : ∀ s s', S s s' → T s s') (hE : ∀ e e', E e e' → F e e') (hA : ∀ a a', A a a' → B a a') :
    EndsAlike T F B r r' := by
  cases h with
  | ok ha hs => exact .ok (hA _ _ ha) (hS _ _ hs)
  | error he hs => exact .error (hE _ _ he) (hS _ _ hs)

def Simulates (S : σ → σ' → Prop) (E : ε → ε' → Prop) (A : α → α' → Prop)
    (p : EStateM ε σ α) (q : EStateM ε' σ' α') : Prop :=
  ∀ s s', S s s' → EndsAlike S E A (p s) (q s')

namespace Simulates

variable {S : σ → σ' → Prop} {E : ε → ε' → Prop} {A : α → α' → Prop} {B : β → β' → Prop}

theorem pure {a : α} {a' : α'} (h : A a a') :
    Simulates S E A (Pure.pure a : EStateM ε σ α) (Pure.pure a' : EStateM ε' σ' α') :=
  fun _ _ hs => .ok h hs

theorem throw {e : ε} {e' : ε'} (h : E e e') :
    Simulates S E A (MonadExcept.throw e : EStateM ε σ α)
      (MonadExcept.throw e' : EStateM ε' σ' α') :=
  fun _ _ hs => .error h hs

theorem bind {p : EStateM ε σ α} {q : EStateM ε' σ' α'} {f : α → EStateM ε σ β}
    {g : α' → EStateM ε' σ' β'} (h : Simulates S E A p q)
    (k : ∀ a a', A a a' → Simulates S E B (f a) (g a')) : Simulates S E B (p >>= f) (q >>= g) := by
  intro s s' hs
  show EndsAlike S E B (EStateM.bind p f s) (EStateM.bind q g s')
  unfold EStateM.bind
  have hr := h s s' hs
  generalize p s = r, q s' = r' at hr ⊢
  cases hr with
  | ok ha ht => exact k _ _ ha _ _ ht
  | error he ht => exact .error he ht

end Simulates

theorem forall₂_getElem? {A : α → α' → Prop} {as : List α} {as' : List α'}
    (h : List.Forall₂ A as as') (i : Nat) : Option.Rel A as[i]? as'[i]? := by
  induction h generalizing i with
  | nil => exact .none
  | cons ha _ ih =>
    cases i with
    | zero => exact .some ha
    | succ i => exact ih i

theorem forall₂_getLast? {A : α → α' → Prop} {as : List α} {as' : List α'}
    (h : List.Forall₂ A as as') : Option.Rel A as.getLast? as'.getLast? := by
  induction h with
  | nil => exact .none
  | cons ha has ih =>
    cases has with
    | nil => exact .some ha
    | cons _ _ =>
      rw [List.getLast?_cons_cons, List.getLast?_cons_cons]
      exact ih

end

section
variable {ε σ α β : Type}

/-- `p` is `q` with guards: it ends as `q` does, or gives up with an error of `E`. -/
def Guarded (E : ε → Prop) (p q : EStateM ε σ α) : Prop :=
  ∀ s, p s = q s ∨ ∃ e s', E e ∧ p s = .error e s'

namespace Guarded

variable {E : ε → Prop} {p q : EStateM ε σ α}

theorem refl (p : EStateM ε σ α) : Guarded E p p := fun _ => .inl rfl

theorem throw {e : ε} (h : E e) : Guarded E (MonadExcept.throw e) q :=
  fun s => .inr ⟨e, s, h, rfl⟩

theorem bind {f g : α → EStateM ε σ β} (h : Guarded E p q) (k : ∀ a, Guarded E (f a) (g a)) :
    Guarded E (p >>= f) (q >>= g) := by
  intro s
  rcases h s with hs | ⟨e, s', he, hs⟩
  · cases hp : p s with
    | ok a s' =>
      rw [bind_of_ok hp, bind_of_ok (hs ▸ hp)]
      exact k a s'
    | error e s' =>
      rw [bind_of_error hp, bind_of_error (hs ▸ hp)]
      exact .inl rfl
  · exact .inr ⟨e, s', he, bind_of_error hs⟩

/-- Success under guards, and failure for another reason, are those of the computation itself. -/
theorem eq_of_not {s : σ} (h : Guarded E p q) (hs : ∀ e s', p s = .error e s' → ¬ E e) :
    q s = p s := by
  rcases h s with heq | ⟨e, s', he, herr⟩
  · exact heq.symm
  · exact absurd he (hs e s' herr)

end Guarded

end

end Reckon
