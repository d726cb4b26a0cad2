import Reckon.Proofs.Parse.Run

/-!
# The bounds of the parser

A bound that covers the tokens at hand decides nothing: under a larger one the parser ends in the
same way, with the same result or with the same error, and leaves the same cursor
(`expressionWithin_eq`, `statementsWithin_eq`).

The proofs follow the parser's text in two copies. A bound runs out only where no token is left, and
there nothing is read any more, since whatever is read uses up a token (`Agrees.length_lt`).
-/

set_option autoImplicit false

namespace Reckon

namespace Parser

/-- Up to `n` tokens `p` and `q` do the same, and use up a token whenever they succeed. -/
structure Agrees {α : Type} (n : Nat) (p q : Parser α) : Prop where
  eq : ∀ c, c.rest.length ≤ n → p c = q c
  length_lt : ∀ c a c', c.rest.length ≤ n → p c = .ok a c' → c'.rest.length < c.rest.length

theorem agrees_name (b : Bounds) (n : Nat) : Agrees n (name b) (name b) := by
  refine ⟨fun _ _ => rfl, fun c x c' _ h => ?_⟩
  obtain ⟨l, hc, -⟩ := name_eq_ok h
  simp [hc]

section
variable {α β : Type} {b : Bounds} {n : Nat}

/-- Without a token left, what follows an item is never reached. -/
theorem Agrees.bind_of_nil {p q : Parser α} (h : Agrees n p q) {c : Cursor} (hc : c.rest.length = 0)
    (f g : α → Parser β) : (p >>= f) c = (q >>= g) c := by
  refine bind_eq_of (h.eq c (by omega)) fun a c' hp => ?_
  have := h.length_lt c a c' (by omega) hp
  omega

theorem Agrees.list {p q : Parser α} (h : Agrees n p q) {i j : Nat} {c : Cursor}
    (hn : c.rest.length ≤ n) (hi : c.rest.length ≤ i) (hj : c.rest.length ≤ j) :
    list p i c = list q j c := by
  induction i generalizing j c with
  | zero => cases j <;> exact h.bind_of_nil (by omega) _ _
  | succ i ih =>
    cases j with
    | zero => exact h.bind_of_nil (by omega) _ _
    | succ j =>
      refine bind_eq_of (h.eq c hn) fun a c' hp => ?_
      have hlt := h.length_lt c a c' hn hp
      rcases accept_cases .comma c' with ⟨l, ts, hc', ha⟩ | ⟨-, ha⟩
      · rw [bind_of_ok ha, bind_of_ok ha]
        rw [hc', List.length_cons] at hlt
        exact bind_eq_of (ih (by simp only; omega) (by simp only; omega) (by simp only; omega))
          (fun _ _ _ => rfl)
      · rw [bind_of_ok ha, bind_of_ok ha]
        rfl

theorem Agrees.listUpTo {p q : Parser α} (h : Agrees n p q) {closing : Mark} {i j : Nat}
    {c : Cursor} (hn : c.rest.length ≤ n) (hi : c.rest.length ≤ i) (hj : c.rest.length ≤ j) :
    listUpTo b closing p i c = listUpTo b closing q j c := by
  induction i generalizing j c with
  | zero => cases j <;> exact h.bind_of_nil (by omega) _ _
  | succ i ih =>
    cases j with
    | zero => exact h.bind_of_nil (by omega) _ _
    | succ j =>
      refine bind_eq_of (h.eq c hn) fun a c' hp => ?_
      have hlt := h.length_lt c a c' hn hp
      obtain ⟨_ | ⟨t, ts⟩, d⟩ := c'
      · rfl
      · simp only [List.length_cons] at hlt
        rw [bind_of_ok (show next ⟨t :: ts, d⟩ = .ok (some t) ⟨ts, d⟩ from rfl),
          bind_of_ok (show next ⟨t :: ts, d⟩ = .ok (some t) ⟨ts, d⟩ from rfl)]
        by_cases ht : t.token = .mark .comma
        · simp only [ht, ↓reduceIte]
          exact bind_eq_of (ih (by simp only; omega) (by simp only; omega) (by simp only; omega))
            (fun _ _ _ => rfl)
        · simp only [ht, ↓reduceIte]

theorem Agrees.enclosed {p q : Parser α} (h : Agrees n p q) {closing : Mark} {i j : Nat}
    {c : Cursor} (hn : c.rest.length ≤ n) (hi : c.rest.length ≤ i) (hj : c.rest.length ≤ j) :
    enclosed b closing p i c = enclosed b closing q j c := by
  rw [Parser.enclosed, Parser.enclosed]
  rcases accept_cases closing c with ⟨l, ts, -, ha⟩ | ⟨-, ha⟩
  · rw [bind_of_ok ha, bind_of_ok ha]
    rfl
  · rw [bind_of_ok ha, bind_of_ok ha]
    exact h.listUpTo hn hi hj

theorem nested_congr {p q : Parser α} {c : Cursor}
    (h : p { c with depth := c.depth + 1 } = q { c with depth := c.depth + 1 }) :
    nested b p c = nested b q c := by
  rw [nested_eq, nested_eq, h]

end

section
variable {b : Bounds} {n i j : Nat} {expression other : Nat → Parser (Expr Unit)}
  (h : ∀ m, Agrees n (expression m) (other m))
include h

theorem Agrees.term {c : Cursor} (hn : c.rest.length ≤ n + 1) (hi : c.rest.length ≤ i + 1)
    (hj : c.rest.length ≤ j + 1) : term b expression i c = term b other j c := by
  obtain ⟨_ | ⟨⟨t, l⟩, ts⟩, d⟩ := c
  · rfl
  simp only [List.length_cons, Nat.add_le_add_iff_right] at hn hi hj
  cases t with
  | number x => rfl
  | name x =>
    refine (Reading.term_name i).trans (Eq.trans ?_ (Reading.term_name j).symm)
    rcases accept_cases .openParen ⟨ts, d⟩ with ⟨l', ts', hts, ha⟩ | ⟨-, ha⟩
    · rw [bind_of_ok ha, bind_of_ok ha]
      simp only at hts
      subst hts
      simp only [List.length_cons] at hn hi hj
      exact bind_eq_of ((h 0).enclosed (by simp only; omega) (by simp only; omega)
        (by simp only; omega)) (fun _ _ _ => rfl)
    · rw [bind_of_ok ha, bind_of_ok ha]
      rfl
  | mark m =>
    cases m with
    | openParen =>
      show (expression 0 >>= _ : Parser (Expr Unit)) ⟨ts, d⟩ = (other 0 >>= _) ⟨ts, d⟩
      exact bind_eq_of ((h 0).eq ⟨ts, d⟩ hn) (fun _ _ _ => rfl)
    | _ => rfl

theorem Agrees.chain {m opened : Nat} {left : Expr Unit} {c : Cursor} (hn : c.rest.length ≤ n)
    (hi : c.rest.length ≤ i) (hj : c.rest.length ≤ j) :
    chain b expression m i opened left c = chain b other m j opened left c := by
  induction i generalizing j c opened left with
  | zero =>
    have hc : c.rest = [] := List.length_eq_zero_iff.1 (by omega)
    exact (chain_of_stops (by rw [hc]; trivial)).trans (chain_of_stops (by rw [hc]; trivial)).symm
  | succ i ih =>
    rcases joint_cases m c with ⟨t, k, ts, hc, -, -, hjoint⟩ | ⟨hstop, -⟩
    · simp only [hc, List.length_cons] at hn hi hj
      obtain ⟨j, rfl⟩ : ∃ j', j = j' + 1 := ⟨j - 1, by omega⟩
      rw [Parser.chain, Parser.chain, bind_of_ok hjoint, bind_of_ok hjoint]
      refine bind_eq_of rfl fun _ c₁ henter => ?_
      obtain ⟨-, rfl⟩ := enter_eq_ok henter
      refine bind_eq_of ((h _).eq _ (by simp only; omega)) fun right c₂ hright => ?_
      have hlt := (h _).length_lt _ _ _ (by simp only; omega) hright
      simp only at hlt
      cases k.combine t.line left right with
      | error e => rfl
      | ok joined => exact ih (by omega) (by omega) (by omega)
    · exact (chain_of_stops hstop).trans (chain_of_stops hstop).symm

theorem Agrees.operation {limit m : Nat} (hr : Reads limit n expression) {c : Cursor}
    (hn : c.rest.length ≤ n + 1) (hj : c.rest.length ≤ j + 1) :
    operation b expression m n c = operation b other m j c := by
  refine bind_eq_of (Agrees.term h hn hn hj) fun first c₁ hfirst => ?_
  have hlt := (hr.term hn hfirst).1.length_lt
  refine bind_eq_of (Agrees.chain h (by omega) (by omega) (by omega)) (fun _ _ _ => rfl)

theorem Agrees.functionLiteral {c : Cursor} (hn : c.rest.length ≤ n + 1)
    (hj : c.rest.length ≤ j + 1) :
    functionLiteral b expression n c = functionLiteral b other j c := by
  refine bind_eq_of rfl fun l c₁ h₁ => ?_
  refine bind_eq_of rfl fun l' c₂ h₂ => ?_
  obtain ⟨hc, -⟩ := expect_eq_ok h₁
  obtain ⟨hc₁, -⟩ := expect_eq_ok h₂
  simp only [hc, hc₁, List.length_cons] at hn hj
  refine bind_eq_of ((agrees_name b n).enclosed (by omega) (by omega) (by omega)) fun xs c₃ h₃ => ?_
  refine bind_eq_of rfl fun l₁ c₄ h₄ => ?_
  have hlt := (params_of_enclosed (by omega) h₃).1.length_lt
  obtain ⟨hc₃, -⟩ := expect_eq_ok h₄
  simp only [hc₃, List.length_cons] at hlt
  rcases ahead_cases .finish c₄ with ⟨_, _, -, ha⟩ | ⟨-, ha⟩
  · rw [bind_of_ok ha, bind_of_ok ha]
    rfl
  · rw [bind_of_ok ha, bind_of_ok ha]
    exact bind_eq_of ((h 0).list (by omega) (by omega) (by omega)) (fun _ _ _ => rfl)

end

theorem expressionWithin_nil {b : Bounds} {n m : Nat} {c : Cursor} (hc : c.rest = []) :
    expressionWithin b n m c = nested b (throw (.unexpectedEnd b.endLine)) c := by
  obtain ⟨_, d⟩ := c
  subst hc
  cases n with
  | zero => rfl
  | succ n => exact nested_congr rfl

/-- By induction on the smaller bound: each nested expression stands behind a token. -/
theorem expressionWithin_eq {b : Bounds} {n k m : Nat} {c : Cursor} (hn : c.rest.length ≤ n)
    (hk : n ≤ k) : expressionWithin b n m c = expressionWithin b k m c := by
  induction n generalizing k m c with
  | zero =>
    have hc : c.rest = [] := List.length_eq_zero_iff.1 (by omega)
    exact (expressionWithin_nil hc).trans (expressionWithin_nil hc).symm
  | succ n ih =>
    obtain ⟨k, rfl⟩ : ∃ k', k = k' + 1 := ⟨k - 1, by omega⟩
    have hr := reads_expressionWithin b n
    have h : ∀ m, Agrees n (expressionWithin b n m) (expressionWithin b k m) := fun m =>
      ⟨fun c hc => ih hc (by omega), fun c e c' hc => hr.length_lt hc e c'⟩
    -- function literals and operations start behind the first token, which pays for the step
    refine nested_congr ?_
    rcases ahead_cases .function { c with depth := c.depth + 1 } with ⟨_, _, -, ha⟩ | ⟨-, ha⟩
    · rw [bind_of_ok ha, bind_of_ok ha]
      exact Agrees.functionLiteral h hn (by simp only; omega)
    · rw [bind_of_ok ha, bind_of_ok ha]
      exact Agrees.operation h hr hn (by simp only; omega)

theorem agrees_expressionWithin (b : Bounds) {n k : Nat} (hk : n ≤ k) (m : Nat) :
    Agrees n (expressionWithin b n m) (expressionWithin b k m) :=
  ⟨fun _ hc => expressionWithin_eq hc hk,
    fun _ e c' hc => (reads_expressionWithin b n).length_lt hc e c'⟩

theorem agrees_statementWithin (b : Bounds) {n k : Nat} (hk : n ≤ k) :
    Agrees n (statementWithin b n) (statementWithin b k) := by
  refine ⟨fun c hc => ?_, fun c s c' hc h => ?_⟩
  · refine bind_eq_of rfl fun line c₁ hline => ?_
    obtain rfl : c₁ = c := by
      obtain ⟨_ | ⟨t, ts⟩, d⟩ := c <;> cases hline <;> rfl
    refine bind_eq_of ?_ (fun _ _ _ => rfl)
    exact (agrees_expressionWithin b hk 0).list hc hc (by omega)
  · obtain ⟨t, ts, l, hr, -, hes, -⟩ := statementWithin_eq_ok hc h
    have := hes.length_lt
    simp only [hr, List.length_cons] at this ⊢
    omega

theorem statementsWithin_eq {b : Bounds} {n k : Nat} {c : Cursor} (hn : c.rest.length ≤ n)
    (hk : n ≤ k) : statementsWithin b n c = statementsWithin b k c := by
  induction n generalizing k c with
  | zero => cases k <;> exact (agrees_statementWithin b hk).bind_of_nil (by omega) _ _
  | succ n ih =>
    obtain ⟨k, rfl⟩ : ∃ k', k = k' + 1 := ⟨k - 1, by omega⟩
    have h := agrees_statementWithin b hk
    refine bind_eq_of (h.eq c hn) fun s c₁ hs => ?_
    have hlt := h.length_lt c s c₁ hn hs
    obtain ⟨_ | ⟨t, ts⟩, d⟩ := c₁
    · rfl
    · rw [bind_of_ok (show peek ⟨t :: ts, d⟩ = .ok (some t) _ from rfl),
        bind_of_ok (show peek ⟨t :: ts, d⟩ = .ok (some t) _ from rfl)]
      exact bind_eq_of (ih (by simp only at hlt ⊢; omega) (by omega)) (fun _ _ _ => rfl)

end Parser

end Reckon
