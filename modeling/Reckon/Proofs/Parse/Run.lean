import Reckon.Proofs.Parse.Reading
import Reckon.Proofs.Simulation

/-!
# Runs of the parser

The parser succeeds exactly where the relations of `Reckon.Proofs.Parse.Reading` say so
(`expression_eq_ok_iff`, `statements_eq_ok_iff`), whatever bound it is given that covers the
tokens at hand.
-/

set_option autoImplicit false

namespace Reckon

namespace Parser

open Reading

variable {α : Type} {b : Bounds}

/-! ## Single tokens -/

theorem ahead_cases (m : Mark) (c : Cursor) :
    (∃ l ts, c.rest = ⟨.mark m, l⟩ :: ts ∧ ahead m c = .ok true c) ∨
      (NotNext m c.rest ∧ ahead m c = .ok false c) := by
  obtain ⟨_ | ⟨⟨t, l⟩, ts⟩, d⟩ := c
  · exact .inr ⟨trivial, rfl⟩
  · by_cases h : t = .mark m
    · subst h
      refine .inl ⟨l, ts, rfl, ?_⟩
      show EStateM.Result.ok _ _ = _
      simp
    · refine .inr ⟨h, ?_⟩
      show EStateM.Result.ok _ _ = _
      simp [h]

theorem accept_cases (m : Mark) (c : Cursor) :
    (∃ l ts, c.rest = ⟨.mark m, l⟩ :: ts ∧ accept m c = .ok true ⟨ts, c.depth⟩) ∨
      (NotNext m c.rest ∧ accept m c = .ok false c) := by
  rcases ahead_cases m c with ⟨l, ts, hc, h⟩ | ⟨hn, h⟩
  · refine .inl ⟨l, ts, hc, ?_⟩
    rw [accept, bind_of_ok h]
    show EStateM.Result.ok true { c with rest := c.rest.tail } = _
    rw [hc, List.tail_cons]
  · refine .inr ⟨hn, ?_⟩
    rw [accept, bind_of_ok h]
    rfl

theorem accept_mark (m : Mark) (l d : Nat) (ts : List Located) :
    accept m ⟨⟨.mark m, l⟩ :: ts, d⟩ = .ok true ⟨ts, d⟩ := by
  rcases accept_cases m ⟨⟨.mark m, l⟩ :: ts, d⟩ with ⟨_, _, hc, h⟩ | ⟨hn, -⟩
  · cases hc
    exact h
  · exact absurd rfl hn

theorem accept_of_notNext {m : Mark} {c : Cursor} (h : NotNext m c.rest) :
    accept m c = .ok false c := by
  rcases accept_cases m c with ⟨_, _, hc, -⟩ | ⟨-, h⟩
  · rw [hc] at h
    exact absurd rfl h
  · exact h

theorem ahead_of_notNext {m : Mark} {c : Cursor} (h : NotNext m c.rest) :
    ahead m c = .ok false c := by
  rcases ahead_cases m c with ⟨_, _, hc, -⟩ | ⟨-, h⟩
  · rw [hc] at h
    exact absurd rfl h
  · exact h

theorem enter_eq_ok {l : Nat} {c c' : Cursor} (h : enter b l c = .ok () c') :
    c.depth < b.limit ∧ c' = { c with depth := c.depth + 1 } := by
  unfold enter at h
  split at h
  · cases h
  · cases h
    exact ⟨by omega, rfl⟩

theorem expect_mark (m : Mark) (l d : Nat) (ts : List Located) :
    expect b m ⟨⟨.mark m, l⟩ :: ts, d⟩ = .ok l ⟨ts, d⟩ := by
  show (if (Token.mark m) = .mark m then _ else _ : Parser Nat) _ = _
  rw [if_pos rfl]
  rfl

theorem expect_eq_ok {m : Mark} {c c' : Cursor} {l : Nat} (h : expect b m c = .ok l c') :
    c.rest = ⟨.mark m, l⟩ :: c'.rest ∧ c'.depth = c.depth := by
  obtain ⟨_ | ⟨⟨t, l'⟩, ts⟩, d⟩ := c
  · cases h
  · change (if t = .mark m then (pure l' : Parser Nat) else throw _) _ = _ at h
    split at h
    · next ht =>
      subst ht
      cases h
      exact ⟨rfl, rfl⟩
    · cases h

theorem joint_cases (minimum : Nat) (c : Cursor) :
    (∃ t j ts, c.rest = t :: ts ∧ Joint.ofToken? t.token = some j ∧ j.continues minimum = true ∧
      joint minimum c = .ok (some (j, t.line)) ⟨ts, c.depth⟩) ∨
      (Stops minimum c.rest ∧ joint minimum c = .ok none c) := by
  obtain ⟨_ | ⟨t, ts⟩, d⟩ := c
  · exact .inr ⟨trivial, rfl⟩
  · cases hj : Joint.ofToken? t.token with
    | none =>
      refine .inr ⟨fun j h => by simp [hj] at h, ?_⟩
      rw [joint, bind_of_ok (show peek ⟨t :: ts, d⟩ = .ok (some t) _ from rfl)]
      simp only [hj]
      rfl
    | some j =>
      cases hm : j.continues minimum with
      | true =>
        refine .inl ⟨t, j, ts, rfl, hj, hm, ?_⟩
        rw [joint, bind_of_ok (show peek ⟨t :: ts, d⟩ = .ok (some t) _ from rfl)]
        simp only [hj, hm, ↓reduceIte]
        rfl
      | false =>
        refine .inr ⟨fun j' h => by rw [hj] at h; cases h; exact hm, ?_⟩
        rw [joint, bind_of_ok (show peek ⟨t :: ts, d⟩ = .ok (some t) _ from rfl)]
        simp only [hj, hm, Bool.false_eq_true, ↓reduceIte]
        rfl

theorem joint_token {minimum d : Nat} {t : Located} {j : Joint} (hj : Joint.ofToken? t.token = some j)
    (hm : j.continues minimum = true) (ts : List Located) :
    joint minimum ⟨t :: ts, d⟩ = .ok (some (j, t.line)) ⟨ts, d⟩ := by
  rcases joint_cases minimum ⟨t :: ts, d⟩ with ⟨t', j', ts', hc, hj', -, h⟩ | ⟨hs, -⟩
  · cases hc
    rw [hj] at hj'
    cases hj'
    exact h
  · exact absurd hm (by simp [hs j hj])

theorem chain_of_stops {expression : Nat → Parser (Expr Unit)} {m i opened : Nat}
    {left : Expr Unit} {c : Cursor} (h : Stops m c.rest) :
    chain b expression m i opened left c = .ok (left, opened) c := by
  cases i with
  | zero => rfl
  | succ i =>
    rcases joint_cases m c with ⟨t, j, ts, hc, hj, hm, -⟩ | ⟨-, hjoint⟩
    · rw [hc] at h
      exact absurd hm (by simp [h j hj])
    · exact (bind_of_ok hjoint).trans rfl

/-- A level is opened if the limit allows it, and closed again whatever happens inside. -/
theorem nested_eq (p : Parser α) (c : Cursor) : nested b p c =
    if b.limit ≤ c.depth then
      .error (.nestingTooDeep b.limit ((c.rest.head?.map Located.line).getD b.endLine)) c
    else match p { c with depth := c.depth + 1 } with
      | .ok a c => .ok a { c with depth := c.depth - 1 }
      | .error e c => .error e { c with depth := c.depth - 1 } := by
  have hline : nextLine b c = .ok ((c.rest.head?.map Located.line).getD b.endLine) c := by
    obtain ⟨_ | ⟨t, ts⟩, d⟩ := c <;> rfl
  rw [nested, b.toBounds_levels, bind_of_ok hline, b.enter_levels, b.release_levels]
  by_cases hd : b.limit ≤ c.depth
  · rw [if_pos hd]
    exact bind_of_error (by rw [enter, if_pos hd])
  · rw [if_neg hd]
    have henter : ∀ line, enter b line c = .ok () { c with depth := c.depth + 1 } := fun line => by
      rw [enter, if_neg hd]
    refine (bind_of_ok (henter _)).trans ?_
    cases p { c with depth := c.depth + 1 } <;> rfl

theorem nested_eq_ok_iff {p : Parser α} {c c' : Cursor} {a : α} :
    nested b p c = .ok a c' ↔ c.depth < b.limit ∧
      ∃ c₁, p { c with depth := c.depth + 1 } = .ok a c₁ ∧
        c' = { c₁ with depth := c₁.depth - 1 } := by
  rw [nested_eq]
  by_cases hd : b.limit ≤ c.depth
  · rw [if_pos hd]
    constructor
    · intro h
      cases h
    · rintro ⟨h, -⟩
      omega
  · rw [if_neg hd]
    cases hp : p { c with depth := c.depth + 1 } with
    | ok a₁ c₁ =>
      constructor
      · intro h
        cases h
        exact ⟨by omega, c₁, rfl, rfl⟩
      · rintro ⟨-, c₂, h, rfl⟩
        cases h
        rfl
    | error e c₁ =>
      constructor
      · intro h
        cases h
      · rintro ⟨-, c₂, h, -⟩
        cases h

/-! ## From runs to readings -/

theorem name_eq_ok {c c' : Cursor} {x : String} (h : name b c = .ok x c') :
    ∃ l, c.rest = ⟨.name x, l⟩ :: c'.rest ∧ c'.depth = c.depth := by
  obtain ⟨_ | ⟨⟨t, l⟩, ts⟩, d⟩ := c
  · cases h
  · cases t with
    | name y => cases h; exact ⟨l, rfl, rfl⟩
    | number _ => cases h
    | mark _ => cases h

/-- One round of a loop over items up to a closing mark. -/
theorem listUpTo_eq_ok {closing : Mark} {item : Parser α} {n : Nat} {c c' : Cursor} {as : List α}
    (hitem : ∀ a c₁, item c = .ok a c₁ → c₁.rest.length < c.rest.length)
    (hn : c.rest.length ≤ n) (h : listUpTo b closing item n c = .ok as c') :
    ∃ a c₁ l, item c = .ok a c₁ ∧
      ((c₁.rest = ⟨.mark closing, l⟩ :: c'.rest ∧ c'.depth = c₁.depth ∧ as = [a]) ∨
       ∃ n' ts as', n = n' + 1 ∧ c₁.rest = ⟨.mark .comma, l⟩ :: ts ∧ as = a :: as' ∧
        listUpTo b closing item n' ⟨ts, c₁.depth⟩ = .ok as' c') := by
  cases n with
  | zero =>
    obtain ⟨a, c₁, ha, -⟩ := bind_eq_ok_iff.1 h
    have := hitem _ _ ha
    omega
  | succ n =>
    obtain ⟨a, ⟨_ | ⟨⟨t, l⟩, ts⟩, d⟩, ha, h⟩ := bind_eq_ok_iff.1 h
    · cases h
    · refine ⟨a, _, l, ha, ?_⟩
      change (if t = .mark .comma then _ else if t = .mark closing then _ else _ : Parser (List α))
        ⟨ts, d⟩ = _ at h
      split at h
      · next ht =>
        subst ht
        obtain ⟨as', c₂, has, h⟩ := bind_eq_ok_iff.1 h
        cases h
        exact .inr ⟨n, ts, as', rfl, rfl, rfl, has⟩
      · split at h
        · next ht =>
          subst ht
          cases h
          exact .inl ⟨rfl, rfl, rfl⟩
        · cases h

theorem names_of_listUpTo {n : Nat} {c c' : Cursor} {xs : List String} (hn : c.rest.length ≤ n)
    (h : listUpTo b .closeParen (name b) n c = .ok xs c') :
    ∃ l, Names c.rest xs (⟨.mark .closeParen, l⟩ :: c'.rest) ∧ c'.depth = c.depth := by
  induction n generalizing c xs with
  | zero =>
    obtain ⟨x, c₁, hx, -⟩ := bind_eq_ok_iff.1 h
    obtain ⟨l, hc, -⟩ := name_eq_ok hx
    simp [hc] at hn
  | succ n ih =>
    have hlt : ∀ x c₁, name b c = .ok x c₁ → c₁.rest.length < c.rest.length := fun x c₁ hx => by
      obtain ⟨l, hc, -⟩ := name_eq_ok hx
      simp [hc]
    obtain ⟨x, c₁, l, hx, ⟨hc₁, hd, rfl⟩ | ⟨n', ts, xs', hn', hc₁, rfl, h⟩⟩ :=
      listUpTo_eq_ok hlt hn h
    · obtain ⟨l', hc, hd'⟩ := name_eq_ok hx
      rw [hc, hc₁]
      exact ⟨l, .last, hd.trans hd'⟩
    · obtain rfl : n = n' := Nat.succ.inj hn'
      obtain ⟨l', hc, hd'⟩ := name_eq_ok hx
      have hts : ts.length ≤ n := by
        simp only [hc, hc₁, List.length_cons] at hn
        omega
      obtain ⟨l₁, hxs, hd⟩ := ih hts h
      rw [hc, hc₁]
      exact ⟨l₁, .more hxs, hd.trans hd'⟩

theorem params_of_enclosed {n : Nat} {c c' : Cursor} {xs : List String} (hn : c.rest.length ≤ n)
    (h : enclosed b .closeParen (name b) n c = .ok xs c') :
    Params c.rest xs c'.rest ∧ c'.depth = c.depth := by
  rw [enclosed] at h
  rcases accept_cases .closeParen c with ⟨l, ts, hc, ha⟩ | ⟨-, ha⟩
  · rw [bind_of_ok ha] at h
    cases h
    rw [hc]
    exact ⟨.none, rfl⟩
  · rw [bind_of_ok ha] at h
    obtain ⟨l, hxs, hd⟩ := names_of_listUpTo hn h
    exact ⟨.some hxs, hd⟩

/-- Up to `n` tokens, what `expression` reads is an expression, and it closes what it opens. -/
def Reads (limit n : Nat) (expression : Nat → Parser (Expr Unit)) : Prop :=
  ∀ m c e c', c.rest.length ≤ n → expression m c = .ok e c' →
    Expression limit c.depth m c.rest e c'.rest ∧ c'.depth = c.depth

section
variable {limit n : Nat} {expression : Nat → Parser (Expr Unit)} (hex : Reads limit n expression)
include hex

theorem Reads.length_lt {m : Nat} {c : Cursor} (hn : c.rest.length ≤ n) (e : Expr Unit)
    (c' : Cursor) (h : expression m c = .ok e c') : c'.rest.length < c.rest.length :=
  (hex m c e c' hn h).1.length_lt

theorem Reads.listUpTo {k : Nat} {c c' : Cursor} {es : List (Expr Unit)} (hk : c.rest.length ≤ k)
    (hn : c.rest.length ≤ n) (h : listUpTo b .closeParen (expression 0) k c = .ok es c') :
    ∃ l, Expressions limit c.depth c.rest es (⟨.mark .closeParen, l⟩ :: c'.rest) ∧
      c'.depth = c.depth := by
  induction k generalizing c es with
  | zero =>
    obtain ⟨e, c₁, he, -⟩ := bind_eq_ok_iff.1 h
    have := hex.length_lt hn e c₁ he
    omega
  | succ k ih =>
    obtain ⟨e, c₁, l, he, ⟨hc₁, hd, rfl⟩ | ⟨k', ts, es', hk', hc₁, rfl, h⟩⟩ :=
      listUpTo_eq_ok (hex.length_lt hn) hk h
    · obtain ⟨hr, hd'⟩ := hex 0 c e c₁ hn he
      rw [hc₁] at hr
      exact ⟨l, .last hr (by simp [NotNext]), hd.trans hd'⟩
    · obtain rfl : k = k' := Nat.succ.inj hk'
      obtain ⟨hr, hd'⟩ := hex 0 c e c₁ hn he
      rw [hc₁] at hr
      have hlt := hr.length_lt
      simp only [List.length_cons] at hlt
      obtain ⟨l₁, hes, hd⟩ := ih (c := ⟨ts, c₁.depth⟩) (by simp only; omega) (by simp only; omega) h
      rw [← hd'] at hr ⊢
      exact ⟨l₁, .more hr hes, hd⟩

theorem Reads.list {k : Nat} {c c' : Cursor} {es : List (Expr Unit)} (hk : c.rest.length ≤ k)
    (hn : c.rest.length ≤ n) (h : list (expression 0) k c = .ok es c') :
    Expressions limit c.depth c.rest es c'.rest ∧ c'.depth = c.depth := by
  induction k generalizing c es with
  | zero =>
    obtain ⟨e, c₁, he, -⟩ := bind_eq_ok_iff.1 h
    have := hex.length_lt hn e c₁ he
    omega
  | succ k ih =>
    obtain ⟨e, c₁, he, h⟩ := bind_eq_ok_iff.1 h
    obtain ⟨hr, hd'⟩ := hex 0 c e c₁ hn he
    rcases accept_cases .comma c₁ with ⟨l, ts, hc₁, ha⟩ | ⟨hnot, ha⟩
    · rw [bind_of_ok ha] at h
      obtain ⟨es', c₂, hes, h⟩ := bind_eq_ok_iff.1 h
      cases h
      rw [hc₁] at hr
      have hlt := hr.length_lt
      simp only [List.length_cons] at hlt
      obtain ⟨hes, hd⟩ := ih (c := ⟨ts, c₁.depth⟩) (by simp only; omega) (by simp only; omega) hes
      rw [← hd'] at hr ⊢
      exact ⟨.more hr hes, hd⟩
    · rw [bind_of_ok ha] at h
      cases h
      exact ⟨.last hr hnot, hd'⟩

theorem Reads.term {c c' : Cursor} {e : Expr Unit} (hn : c.rest.length ≤ n + 1)
    (h : term b expression n c = .ok e c') :
    Term limit c.depth c.rest e c'.rest ∧ c'.depth = c.depth := by
  obtain ⟨_ | ⟨⟨t, l⟩, ts⟩, d⟩ := c
  · cases h
  simp only [List.length_cons, Nat.add_le_add_iff_right] at hn
  cases t with
  | number x =>
    cases h
    exact ⟨.number, rfl⟩
  | name x =>
    change (accept .openParen >>= fun a => if a then _ else _ : Parser (Expr Unit)) ⟨ts, d⟩ = _ at h
    rcases accept_cases .openParen ⟨ts, d⟩ with ⟨l', ts', hts, ha⟩ | ⟨hnot, ha⟩
    · rw [bind_of_ok ha] at h
      obtain ⟨es, c₁, hes, h⟩ := bind_eq_ok_iff.1 h
      cases h
      simp only at hts
      subst hts
      simp only [List.length_cons] at hn
      rw [enclosed] at hes
      rcases accept_cases .closeParen ⟨ts', d⟩ with ⟨l₁, ts₁, hts, ha⟩ | ⟨-, ha⟩
      · rw [bind_of_ok ha] at hes
        cases hes
        simp only at hts
        subst hts
        exact ⟨.emptyCall, rfl⟩
      · rw [bind_of_ok ha] at hes
        obtain ⟨l₁, hes, hd⟩ := hex.listUpTo (c := ⟨ts', d⟩) (by simp only; omega)
          (by simp only; omega) hes
        exact ⟨.call hes, hd⟩
    · rw [bind_of_ok ha] at h
      cases h
      exact ⟨.var hnot, rfl⟩
  | mark m =>
    cases m with
    | openParen =>
      change (expression 0 >>= fun e => _ : Parser (Expr Unit)) ⟨ts, d⟩ = _ at h
      obtain ⟨e₁, c₁, he, h⟩ := bind_eq_ok_iff.1 h
      obtain ⟨l', c₂, hl, h⟩ := bind_eq_ok_iff.1 h
      cases h
      obtain ⟨hr, hd⟩ := hex 0 _ _ _ hn he
      obtain ⟨hc₁, hd₁⟩ := expect_eq_ok hl
      rw [hc₁] at hr
      exact ⟨.group hr, hd₁.trans hd⟩
    | _ => cases h

/-- The levels of a chain are those that it reports as open. -/
theorem Reads.chain {m k opened opened' : Nat} {left e : Expr Unit} {c c' : Cursor}
    (hk : c.rest.length ≤ k) (hn : c.rest.length ≤ n)
    (h : chain b expression m k opened left c = .ok (e, opened') c') (hb : b.limit = limit) :
    Chain limit c.depth m c.rest left e c'.rest ∧ c'.depth + opened = c.depth + opened' := by
  induction k generalizing c left opened with
  | zero =>
    -- the bound is used up only where the tokens are
    have hc : c.rest = [] := List.length_eq_zero_iff.1 (by omega)
    have hstop : Stops m c.rest := by rw [hc]; trivial
    cases h
    exact ⟨.stop hstop, rfl⟩
  | succ k ih =>
    rw [Parser.chain] at h
    rcases joint_cases m c with ⟨t, j, ts, hc, hj, hm, hjoint⟩ | ⟨hstop, hjoint⟩
    · rw [bind_of_ok hjoint] at h
      obtain ⟨_, c₁, henter, h⟩ := bind_eq_ok_iff.1 h
      obtain ⟨hd, rfl⟩ := enter_eq_ok henter
      rw [hb] at hd
      obtain ⟨right, c₂, hright, h⟩ := bind_eq_ok_iff.1 h
      simp only [hc, List.length_cons] at hk hn
      obtain ⟨hr, hd₂⟩ := hex _ _ _ _ (by simp only; omega) hright
      have hlt := hr.length_lt
      simp only at hlt
      cases hcomb : j.combine t.line left right with
      | error err => simp only [hcomb] at h; cases h
      | ok joined =>
        simp only [hcomb] at h
        obtain ⟨hch, hd₃⟩ := ih (by omega) (by omega) h
        rw [hd₂] at hch hd₃
        rw [hc]
        exact ⟨.fold hj hm hd hr hcomb hch, by simp only at hd₃; omega⟩
    · rw [bind_of_ok hjoint] at h
      cases h
      exact ⟨.stop hstop, rfl⟩

theorem Reads.operation {m : Nat} {c c' : Cursor} {e : Expr Unit} (hn : c.rest.length ≤ n + 1)
    (h : operation b expression m n c = .ok e c') (hb : b.limit = limit) :
    ∃ first mid, Term limit c.depth c.rest first mid ∧
      Chain limit c.depth m mid first e c'.rest ∧ c'.depth = c.depth := by
  obtain ⟨first, c₁, hfirst, h⟩ := bind_eq_ok_iff.1 h
  obtain ⟨⟨e₂, opened⟩, c₂, hchain, h⟩ := bind_eq_ok_iff.1 h
  obtain ⟨ht, hd⟩ := hex.term hn hfirst
  have hlt := ht.length_lt
  obtain ⟨hch, hd₂⟩ := hex.chain (by omega) (by omega) hchain hb
  rw [hd] at hch hd₂
  cases h
  exact ⟨first, c₁.rest, ht, hch, by simp only; omega⟩

theorem Reads.functionLiteral {m : Nat} {c c' : Cursor} {e : Expr Unit}
    (hn : c.rest.length ≤ n + 1) (h : functionLiteral b expression n c = .ok e c') {d : Nat}
    (hd : c.depth = d + 1) (hlimit : d < limit) :
    Expression limit d m c.rest e c'.rest ∧ c'.depth = c.depth := by
  obtain ⟨l, c₁, h₁, h⟩ := bind_eq_ok_iff.1 h
  obtain ⟨l', c₂, h₂, h⟩ := bind_eq_ok_iff.1 h
  obtain ⟨params, c₃, h₃, h⟩ := bind_eq_ok_iff.1 h
  obtain ⟨l₁, c₄, h₄, h⟩ := bind_eq_ok_iff.1 h
  obtain ⟨hc, hd₁⟩ := expect_eq_ok h₁
  obtain ⟨hc₁, hd₂⟩ := expect_eq_ok h₂
  simp only [hc, hc₁, List.length_cons] at hn
  obtain ⟨hp, hd₃⟩ := params_of_enclosed (by omega) h₃
  obtain ⟨hc₃, hd₄⟩ := expect_eq_ok h₄
  have hlt := hp.length_lt
  rw [hc₃] at hp hlt
  simp only [List.length_cons] at hlt
  rw [hc, hc₁]
  rcases ahead_cases .finish c₄ with ⟨_, _, -, ha⟩ | ⟨-, ha⟩
  · rw [bind_of_ok ha] at h
    obtain ⟨_, _, ⟨⟩, h⟩ := bind_eq_ok_iff.1 h
    obtain ⟨l₂, c₅, h₅, h⟩ := bind_eq_ok_iff.1 h
    cases h
    obtain ⟨hc₄, hd₅⟩ := expect_eq_ok h₅
    rw [hc₄] at hp
    exact ⟨.emptyFunction hlimit hp, by omega⟩
  · rw [bind_of_ok ha] at h
    obtain ⟨body, c₅, h₅, h⟩ := bind_eq_ok_iff.1 h
    obtain ⟨l₂, c₆, h₆, h⟩ := bind_eq_ok_iff.1 h
    cases h
    obtain ⟨hbody, hd₅⟩ := hex.list (c := c₄) (by omega) (by omega) h₅
    obtain ⟨hc₅, hd₆⟩ := expect_eq_ok h₆
    rw [hc₅, show c₄.depth = d + 1 by omega] at hbody
    exact ⟨.function hlimit hp hbody, by omega⟩

end

/-- By induction on the bound: each nested expression stands behind a token. -/
theorem reads_expressionWithin (b : Bounds) (n : Nat) :
    Reads b.limit n (expressionWithin b n) := by
  induction n with
  | zero =>
    intro m c e c' _ h
    obtain ⟨-, c₁, h₁, -⟩ := nested_eq_ok_iff.1 h
    cases h₁
  | succ n ih =>
    intro m c e c' hn h
    obtain ⟨hd, c₁, h₁, rfl⟩ := nested_eq_ok_iff.1 h
    rcases ahead_cases .function { c with depth := c.depth + 1 } with ⟨_, _, -, ha⟩ | ⟨-, ha⟩
    · rw [bind_of_ok ha] at h₁
      obtain ⟨hr, hd₁⟩ := ih.functionLiteral (c := ⟨c.rest, c.depth + 1⟩) hn h₁ rfl hd
      exact ⟨hr, by simp [hd₁]⟩
    · rw [bind_of_ok ha] at h₁
      obtain ⟨first, mid, ht, hch, hd₁⟩ := ih.operation (c := ⟨c.rest, c.depth + 1⟩) hn h₁ rfl
      exact ⟨.operation hd ht hch, by simp [hd₁]⟩

end Parser

/-! ## From readings to runs -/

namespace Reading

open Reckon.Parser

variable {α : Type} {b : Bounds}

theorem listUpTo_last {closing : Mark} {item : Parser α} {a : α} {l d k : Nat}
    {ts rest : List Located} (hc : closing ≠ .comma)
    (h : item ⟨ts, d⟩ = .ok a ⟨⟨.mark closing, l⟩ :: rest, d⟩) :
    listUpTo b closing item (k + 1) ⟨ts, d⟩ = .ok [a] ⟨rest, d⟩ := by
  rw [Parser.listUpTo, bind_of_ok h]
  show (if Token.mark closing = .mark .comma then _ else if Token.mark closing = .mark closing
    then _ else _ : Parser (List α)) ⟨rest, d⟩ = _
  rw [if_neg (by simpa using hc), if_pos rfl]
  rfl

theorem listUpTo_more {closing : Mark} {item : Parser α} {a : α} {as : List α} {l d k : Nat}
    {ts mid rest : List Located} (h : item ⟨ts, d⟩ = .ok a ⟨⟨.mark .comma, l⟩ :: mid, d⟩)
    (hs : listUpTo b closing item k ⟨mid, d⟩ = .ok as ⟨rest, d⟩) :
    listUpTo b closing item (k + 1) ⟨ts, d⟩ = .ok (a :: as) ⟨rest, d⟩ := by
  rw [Parser.listUpTo, bind_of_ok h]
  refine (bind_of_ok (show next _ = .ok (some ⟨.mark .comma, l⟩) ⟨mid, d⟩ from rfl)).trans ?_
  simp only [↓reduceIte]
  rw [bind_of_ok hs]
  rfl

theorem Names.run {ts rest : List Located} {xs : List String} {l : Nat}
    (h : Names ts xs (⟨.mark .closeParen, l⟩ :: rest)) {k : Nat} (hk : ts.length ≤ k) (d : Nat) :
    listUpTo b .closeParen (name b) k ⟨ts, d⟩ = .ok xs ⟨rest, d⟩ := by
  generalize hm : (⟨.mark .closeParen, l⟩ :: rest : List Located) = mid at h
  induction h generalizing k with
  | last =>
    subst hm
    obtain ⟨k, rfl⟩ : ∃ k', k = k' + 1 := ⟨k - 1, by simp only [List.length_cons] at hk; omega⟩
    exact listUpTo_last (by decide) rfl
  | more h ih =>
    simp only [List.length_cons] at hk
    obtain ⟨k, rfl⟩ : ∃ k', k = k' + 1 := ⟨k - 1, by omega⟩
    exact listUpTo_more rfl (ih (by omega) hm)

theorem Names.notNext {ts rest : List Located} {xs : List String} (h : Names ts xs rest)
    (m : Mark) : NotNext m ts := by
  cases h <;> simp [NotNext]

theorem Params.run {ts rest : List Located} {xs : List String} (h : Params ts xs rest) {k : Nat}
    (hk : ts.length ≤ k) (d : Nat) :
    enclosed b .closeParen (name b) k ⟨ts, d⟩ = .ok xs ⟨rest, d⟩ := by
  rw [enclosed]
  cases h with
  | none =>
    rw [bind_of_ok (accept_mark _ _ _ _)]
    rfl
  | some h =>
    rw [bind_of_ok (accept_of_notNext (h.notNext _))]
    exact h.run hk d

theorem term_name {expression : Nat → Parser (Expr Unit)} {x : String} {l d : Nat}
    {ts : List Located} (n : Nat) : term b expression n ⟨⟨.name x, l⟩ :: ts, d⟩ =
      (accept .openParen >>= fun call => if call then do
        let arguments ← enclosed b .closeParen (expression 0) n
        pure (.call x arguments l)
      else pure (.var x l) : Parser (Expr Unit)) ⟨ts, d⟩ := rfl

mutual

theorem Expression.run {d m : Nat} {ts rest : List Located} {e : Expr Unit} :
    Expression b.limit d m ts e rest → ∀ n : Nat, ts.length ≤ n →
      expressionWithin b n m ⟨ts, d⟩ = .ok e ⟨rest, d⟩
  | .emptyFunction hd hp => by
    intro n hn
    have hlt := hp.length_lt
    simp only [List.length_cons] at hn hlt
    obtain ⟨n, rfl⟩ : ∃ n', n = n' + 1 := ⟨n - 1, by omega⟩
    refine nested_eq_ok_iff.2 ⟨hd, ⟨rest, d + 1⟩, ?_, rfl⟩
    refine (bind_of_ok (show ahead .function _ = .ok true _ from rfl)).trans ?_
    refine (bind_of_ok (expect_mark ..)).trans ?_
    refine (bind_of_ok (expect_mark ..)).trans ?_
    refine (bind_of_ok (hp.run (by omega) (d + 1))).trans ?_
    refine (bind_of_ok (expect_mark ..)).trans ?_
    refine (bind_of_ok (show ahead .finish _ = .ok true _ from rfl)).trans ?_
    refine (bind_of_ok rfl).trans ?_
    exact (bind_of_ok (expect_mark ..)).trans rfl
  | .function hd hp hb => by
    intro n hn
    have hlt := hp.length_lt
    simp only [List.length_cons] at hn hlt
    obtain ⟨n, rfl⟩ : ∃ n', n = n' + 1 := ⟨n - 1, by omega⟩
    refine nested_eq_ok_iff.2 ⟨hd, ⟨rest, d + 1⟩, ?_, rfl⟩
    refine (bind_of_ok (show ahead .function _ = .ok true _ from rfl)).trans ?_
    refine (bind_of_ok (expect_mark ..)).trans ?_
    refine (bind_of_ok (expect_mark ..)).trans ?_
    refine (bind_of_ok (hp.run (by omega) (d + 1))).trans ?_
    refine (bind_of_ok (expect_mark ..)).trans ?_
    refine (bind_of_ok (ahead_of_notNext (hb.opens.notNext (by decide) (by decide)))).trans ?_
    refine (bind_of_ok ((hb.run n n (by omega) (by omega)).1)).trans ?_
    exact (bind_of_ok (expect_mark ..)).trans rfl
  | .operation hd ht hc => by
    intro n hn
    have hlt := ht.length_lt
    obtain ⟨n, rfl⟩ : ∃ n', n = n' + 1 := ⟨n - 1, by omega⟩
    -- the `j` levels of the chain are those that `release` closes
    obtain ⟨j, hj⟩ := hc.run n n 0 (by omega) (by omega)
    refine nested_eq_ok_iff.2 ⟨hd, ⟨rest, d + 1⟩, ?_, rfl⟩
    have hf : NotNext .function ts := by
      obtain ⟨t, mid, rfl, hm⟩ := ht.opens
      exact fun he => by simpa using hm _ he
    refine (bind_of_ok (ahead_of_notNext hf)).trans ?_
    refine (bind_of_ok (ht.run n hn)).trans ?_
    refine (bind_of_ok hj).trans ?_
    simp [release, bind, EStateM.bind, pure, EStateM.pure]

theorem Term.run {d : Nat} {ts rest : List Located} {e : Expr Unit} :
    Term b.limit d ts e rest → ∀ n : Nat, ts.length ≤ n + 1 →
      term b (expressionWithin b n) n ⟨ts, d⟩ = .ok e ⟨rest, d⟩
  | .number => fun _ _ => rfl
  | .var h => fun _ _ => (term_name _).trans ((bind_of_ok (accept_of_notNext h)).trans rfl)
  | .emptyCall => by
    intro n _
    refine (term_name _).trans ((bind_of_ok (accept_mark ..)).trans ?_)
    refine (bind_of_ok ?_).trans rfl
    exact (bind_of_ok (accept_mark ..)).trans rfl
  | .call hs => by
    intro n hn
    simp only [List.length_cons] at hn
    refine (term_name _).trans ((bind_of_ok (accept_mark ..)).trans ?_)
    refine (bind_of_ok ?_).trans rfl
    refine (bind_of_ok (accept_of_notNext (hs.opens.notNext (by decide) (by decide)))).trans ?_
    exact (hs.run n n (by omega) (by omega)).2 _ _ rfl
  | .group h => by
    intro n hn
    simp only [List.length_cons] at hn
    refine (bind_of_ok (h.run n (by omega))).trans ?_
    exact (bind_of_ok (expect_mark ..)).trans rfl

/-- A chain that has folded `i` joints has opened `i` levels. -/
theorem Chain.run {d m : Nat} {ts rest : List Located} {left e : Expr Unit} :
    Chain b.limit d m ts left e rest → ∀ n k opened : Nat, ts.length ≤ k → ts.length ≤ n →
      ∃ i, chain b (expressionWithin b n) m k opened left ⟨ts, d⟩ =
        .ok (e, opened + i) ⟨rest, d + i⟩
  | .stop hs => by
    intro n k opened _ _
    exact ⟨0, chain_of_stops hs⟩
  | @Chain.fold _ _ _ t j ts _ _ _ _ _ _ hj hm hd h hcomb hc => by
    intro n k opened hk hn
    simp only [List.length_cons] at hk hn
    obtain ⟨k, rfl⟩ : ∃ k', k = k' + 1 := ⟨k - 1, by omega⟩
    have hlt := h.length_lt
    obtain ⟨i, hi⟩ := hc.run n k (opened + 1) (by omega) (by omega)
    refine ⟨i + 1, ?_⟩
    refine (bind_of_ok (joint_token hj hm ts)).trans ?_
    refine (bind_of_ok (show enter b t.line ⟨ts, d⟩ = .ok () ⟨ts, d + 1⟩ from ?_)).trans ?_
    · rw [enter, if_neg (by simpa using hd)]
    refine (bind_of_ok (h.run n (by omega))).trans ?_
    simp only [hcomb, hi]
    congr 2 <;> omega

theorem Expressions.run {d : Nat} {ts rest : List Located} {es : List (Expr Unit)} :
    Expressions b.limit d ts es rest → ∀ n k : Nat, ts.length ≤ k → ts.length ≤ n →
      list (expressionWithin b n 0) k ⟨ts, d⟩ = .ok es ⟨rest, d⟩ ∧
      ∀ l rest', rest = ⟨.mark .closeParen, l⟩ :: rest' →
        listUpTo b .closeParen (expressionWithin b n 0) k ⟨ts, d⟩ = .ok es ⟨rest', d⟩
  | .last h hnot => by
    intro n k hk hn
    have hlt := h.length_lt
    have hrun := h.run n hn
    obtain ⟨k, rfl⟩ : ∃ k', k = k' + 1 := ⟨k - 1, by omega⟩
    refine ⟨?_, ?_⟩
    · refine (bind_of_ok hrun).trans ?_
      exact (bind_of_ok (accept_of_notNext hnot)).trans rfl
    · rintro l rest' rfl
      exact listUpTo_last (by decide) hrun
  | .more h hs => by
    intro n k hk hn
    have hlt := h.length_lt
    simp only [List.length_cons] at hlt
    obtain ⟨k, rfl⟩ : ∃ k', k = k' + 1 := ⟨k - 1, by omega⟩
    have hrun := h.run n hn
    obtain ⟨hlist, hupTo⟩ := hs.run n k (by omega) (by omega)
    refine ⟨?_, ?_⟩
    · refine (bind_of_ok hrun).trans ?_
      refine (bind_of_ok (accept_mark ..)).trans ?_
      exact (bind_of_ok hlist).trans rfl
    · rintro l rest' rfl
      exact listUpTo_more hrun (hupTo l rest' rfl)

end

theorem Expressions.statement {d l n : Nat} {t : Located} {ts rest : List Located}
    {es : List (Expr Unit)} (h : Expressions b.limit d (t :: ts) es (⟨.mark .dot, l⟩ :: rest))
    (hn : (t :: ts).length ≤ n) :
    statementWithin b n ⟨t :: ts, d⟩ = .ok ⟨es, t.line⟩ ⟨rest, d⟩ := by
  refine (bind_of_ok (show nextLine b _ = .ok t.line _ from rfl)).trans ?_
  refine (bind_of_ok (h.run n n hn hn).1).trans ?_
  exact (bind_of_ok (expect_mark ..)).trans rfl

theorem Program.run {d : Nat} {ts : List Located} {program : List (Statement Unit)}
    (h : Program b.limit d ts program) {n : Nat} (hn : ts.length ≤ n) :
    statementsWithin b n ⟨ts, d⟩ = .ok program ⟨[], d⟩ := by
  induction h generalizing n with
  | last h =>
    obtain ⟨n, rfl⟩ : ∃ n', n = n' + 1 := ⟨n - 1, by simp only [List.length_cons] at hn; omega⟩
    exact (bind_of_ok (h.statement hn)).trans rfl
  | more h _ ih =>
    have hlt := h.length_lt
    simp only [List.length_cons] at hlt hn ih
    obtain ⟨n, rfl⟩ : ∃ n', n = n' + 1 := ⟨n - 1, by omega⟩
    refine (bind_of_ok (h.statement (by simpa using hn))).trans ?_
    refine (bind_of_ok (show peek _ = .ok (some _) _ from rfl)).trans ?_
    exact (bind_of_ok (ih (by omega))).trans rfl

end Reading

/-! ## Success of the parser -/

namespace Parser

open Reading

variable {b : Bounds} {n : Nat}

theorem expression_eq_ok_iff {m : Nat} {c c' : Cursor} {e : Expr Unit} :
    expression b m c = .ok e c' ↔
      Expression b.limit c.depth m c.rest e c'.rest ∧ c'.depth = c.depth := by
  constructor
  · exact reads_expressionWithin b _ m c e c' (Nat.le_refl _)
  · rintro ⟨h, hd⟩
    rw [show c' = ⟨c'.rest, c.depth⟩ by rw [← hd]]
    exact h.run _ (Nat.le_refl _)

theorem statementWithin_eq_ok {c c' : Cursor} {s : Statement Unit} (hn : c.rest.length ≤ n)
    (h : statementWithin b n c = .ok s c') : ∃ t ts l, c.rest = t :: ts ∧ s.line = t.line ∧
      Expressions b.limit c.depth (t :: ts) s.expressions (⟨.mark .dot, l⟩ :: c'.rest) ∧
      c'.depth = c.depth := by
  obtain ⟨ts, d⟩ := c
  obtain ⟨line, c₁, hline, h⟩ := bind_eq_ok_iff.1 h
  obtain ⟨es, c₂, hes, h⟩ := bind_eq_ok_iff.1 h
  obtain ⟨l, c₃, hl, h⟩ := bind_eq_ok_iff.1 h
  cases h
  cases ts with
  | nil =>
    cases hline
    obtain ⟨hr, -⟩ := (reads_expressionWithin b n).list hn hn hes
    exact absurd hr.length_lt (by simp)
  | cons t ts =>
    cases hline
    obtain ⟨hr, hd⟩ := (reads_expressionWithin b n).list hn hn hes
    obtain ⟨hc₂, hd₂⟩ := expect_eq_ok hl
    rw [hc₂] at hr
    exact ⟨t, ts, l, rfl, rfl, hr, hd₂.trans hd⟩

theorem statementsWithin_eq_ok {c c' : Cursor} {program : List (Statement Unit)}
    (hn : c.rest.length ≤ n) (h : statementsWithin b n c = .ok program c') :
    Program b.limit c.depth c.rest program ∧ c' = ⟨[], c.depth⟩ := by
  induction n generalizing c program with
  | zero =>
    obtain ⟨s, c₁, hs, -⟩ := bind_eq_ok_iff.1 h
    obtain ⟨t, ts, l, hc, -⟩ := statementWithin_eq_ok hn hs
    simp [hc] at hn
  | succ n ih =>
    obtain ⟨⟨es, line⟩, ⟨_ | ⟨u, rest⟩, d₁⟩, hs, h⟩ := bind_eq_ok_iff.1 h
    · obtain ⟨t, ts, l, hc, rfl, hr, rfl⟩ := statementWithin_eq_ok hn hs
      cases h
      rw [hc]
      exact ⟨.last hr, rfl⟩
    · obtain ⟨t, ts, l, hc, rfl, hr, rfl⟩ := statementWithin_eq_ok hn hs
      obtain ⟨_, _, ⟨⟩, h⟩ := bind_eq_ok_iff.1 h
      obtain ⟨others, c₂, hothers, h⟩ := bind_eq_ok_iff.1 h
      cases h
      have hlt := hr.length_lt
      simp only [hc, List.length_cons] at hlt hn
      obtain ⟨hp, rfl⟩ := ih (by simp only [List.length_cons]; omega) hothers
      rw [hc]
      exact ⟨.more hr hp, rfl⟩

theorem statements_eq_ok_iff {c c' : Cursor} {program : List (Statement Unit)} :
    statements b c = .ok program c' ↔
      Program b.limit c.depth c.rest program ∧ c' = ⟨[], c.depth⟩ := by
  constructor
  · exact statementsWithin_eq_ok (Nat.le_refl _)
  · rintro ⟨h, rfl⟩
    exact h.run (Nat.le_refl _)

end Parser

end Reckon
