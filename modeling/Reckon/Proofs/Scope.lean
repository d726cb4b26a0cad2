import Reckon.Scope

/-!
# Properties of the values in a scope

`Scope.All P`: every value in the tables of the scope has the property `P`. Each operation on scopes
keeps what the values that it writes have too.
-/

set_option autoImplicit false

namespace Reckon

variable {τ : Type}

/-- Every value in the table has the property. -/
def Table.All (P : Value τ → Prop) (t : Table τ) : Prop :=
  ∀ (name : String) (v : Value τ), t[name]? = some v → P v

/-- Every value in the tables of the scope has the property. -/
structure Scope.All (P : Value τ → Prop) (s : Scope τ) : Prop where
  locals : Table.All P s.locals
  outer : ∀ t ∈ s.outer, Table.All P t

variable {P : Value τ → Prop} {s : Scope τ}

theorem Table.All.empty : Table.All P (∅ : Table τ) := by
  intro name v h
  rw [Std.ExtTreeMap.getElem?_empty] at h
  cases h

namespace Scope.All

theorem imp {Q : Value τ → Prop} (h : s.All P) (hPQ : ∀ v, P v → Q v) : s.All Q :=
  ⟨fun name v hv => hPQ v (h.locals name v hv),
    fun t ht name v hv => hPQ v (h.outer t ht name v hv)⟩

theorem empty : (Scope.empty : Scope τ).All P :=
  ⟨.empty, fun _ ht => by cases ht⟩

theorem push (h : s.All P) : s.push.All P := by
  refine ⟨.empty, fun t ht => ?_⟩
  rcases List.mem_cons.1 ht with rfl | ht
  · exact h.locals
  · exact h.outer t ht

theorem pop (h : s.All P) : s.pop.All P := by
  obtain ⟨locals, outer⟩ := s
  cases outer with
  | nil => exact h
  | cons t ts => exact ⟨h.outer t (List.mem_cons_self ..), fun t' ht' =>
      h.outer t' (List.mem_cons_of_mem t ht')⟩

theorem write (h : s.All P) {v : Value τ} (hv : P v) (name : String) : (s.write name v).All P := by
  refine ⟨fun other w hw => ?_, h.outer⟩
  have hlocal := s.getLocal?_write name other v
  unfold Scope.getLocal? at hlocal
  rw [hlocal] at hw
  split at hw
  · cases hw
    exact hv
  · exact h.locals other w hw

theorem writeAll (h : s.All P) {pairs : List (String × Value τ)} (hp : ∀ pair ∈ pairs, P pair.2) :
    (s.writeAll pairs).All P := by
  unfold Scope.writeAll
  induction pairs generalizing s with
  | nil => exact h
  | cons pair pairs ih =>
    exact ih (h.write (hp pair (by simp)) pair.1) fun q hq => hp q (by simp [hq])

theorem lookup? (h : s.All P) {name : String} {v : Value τ} (hv : s.lookup? name = some v) :
    P v := by
  unfold Scope.lookup? at hv
  obtain ⟨t, ht, htv⟩ := List.exists_of_findSome?_eq_some hv
  rcases List.mem_cons.1 ht with rfl | ht
  · exact h.locals name v htv
  · exact h.outer t ht name v htv

theorem read (h : s.All P) (hzero : P .zero) (name : String) :
    P (s.read name).1 ∧ (s.read name).2.All P := by
  unfold Scope.read
  cases hv : s.lookup? name with
  | some v => exact ⟨h.lookup? hv, h⟩
  | none => exact ⟨hzero, h.write hzero name⟩

end Scope.All

end Reckon
