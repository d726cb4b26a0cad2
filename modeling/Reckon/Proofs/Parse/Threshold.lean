import Mathlib.Data.Nat.Find
import Reckon.Proofs.Parse.Append
import Reckon.Proofs.Parse.Limit

/-!
# The threshold of the nesting limit

For each source text there is a smallest limit under which its nesting is no reason to fail
(`parse_threshold`). Every larger limit gives the same outcome, and every smaller one the error of
the limit, on a line of the text.

That such a limit exists comes from an account in which tokens pay for levels. A level is opened
for a joint that has just been taken and for an expression, of which there is at most one for each
token taken, and one before the first token. `Affords limit cost gain p`: with `cost` levels to
spend besides two for each token that is left, `p` never runs into the limit, and has `gain` levels
to spend when it succeeds.

The lines of errors need no account of their own. The parser commutes with every map of lines, and a
map that moves only the line of the error would have to move a token with it.
-/

set_option autoImplicit false

namespace Reckon

/-- The open levels, and two for each token that is left. -/
def Cursor.load (c : Cursor) : Nat := c.depth + 2 * c.rest.length

theorem Joint.combine_ne_tooDeep {j : Joint} {line : Nat} {left right : Expr Unit}
    {e : SyntaxError} (h : j.combine line left right = .error e) (k : Nat) : ¬ e.IsTooDeep k := by
  unfold Joint.combine at h
  split at h <;> cases h
  simp [SyntaxError.IsTooDeep]

namespace Parser

section
variable {α β : Type}

structure Affords (limit cost : Nat) (gain : α → Nat) (p : Parser α) : Prop where
  ok : ∀ c a c', c.load + cost ≤ limit → p c = .ok a c' → c'.load + gain a ≤ c.load + cost
  error : ∀ c e c', c.load + cost ≤ limit → p c = .error e c' → ∀ k, ¬ e.IsTooDeep k

namespace Affords

variable {limit x : Nat} {gain : α → Nat} {p : Parser α}

theorem bind {f : α → Parser β} {gain' : β → Nat} (h : Affords limit x gain p)
    (hf : ∀ a, Affords limit (gain a) gain' (f a)) : Affords limit x gain' (p >>= f) := by
  constructor
  · intro c b c₂ hc hrun
    obtain ⟨a, c₁, hp, hfa⟩ := bind_eq_ok_iff.1 hrun
    have hgain := h.ok c a c₁ hc hp
    have := (hf a).ok c₁ b c₂ (by omega) hfa
    omega
  · intro c e c₂ hc hrun
    cases hp : p c with
    | ok a c₁ =>
      rw [bind_of_ok hp] at hrun
      have hgain := h.ok c a c₁ hc hp
      exact (hf a).error c₁ e c₂ (by omega) hrun
    | error e' c₁ =>
      rw [bind_of_error hp] at hrun
      cases hrun
      exact h.error c e c₂ hc hp

theorem spare {y : Nat} (h : Affords limit x gain p) (hxy : x ≤ y) : Affords limit y gain p := by
  constructor
  · intro c a c' hc hrun
    have := h.ok c a c' (by omega) hrun
    omega
  · intro c e c' hc hrun
    exact h.error c e c' (by omega) hrun

theorem pure {a : α} (h : gain a ≤ x) : Affords limit x gain (Pure.pure a : Parser α) := by
  constructor
  · intro c a' c' _ hrun
    cases hrun
    omega
  · intro c e c' _ hrun
    cases hrun

theorem throw {e : SyntaxError} (h : ∀ k, ¬ e.IsTooDeep k) :
    Affords limit x gain (MonadExcept.throw e : Parser α) := by
  constructor
  · intro c a c' _ hrun
    cases hrun
  · intro c e' c' _ hrun
    cases hrun
    exact h

end Affords

end

/-! ## Single tokens -/

section
variable {b : Bounds} {x : Nat}

theorem affords_peek : Affords b.limit x (fun _ => x) peek := by
  constructor
  · intro c a c' _ hrun
    cases hrun
    omega
  · intro c e c' _ hrun
    cases hrun

/-- A token that is taken pays for two levels. -/
theorem affords_next : Affords b.limit x (fun t => t.elim x fun _ => x + 2) next := by
  constructor
  · rintro ⟨_ | ⟨t, ts⟩, d⟩ a c' _ hrun
    · cases hrun
      exact Nat.le_refl _
    · cases hrun
      simp only [Cursor.load, List.head?_cons, Option.elim_some, List.tail_cons, List.length_cons]
      omega
  · intro c e c' _ hrun
    cases hrun

theorem affords_nextLine : Affords b.limit x (fun _ => x) (nextLine b) := by
  refine affords_peek.bind fun t => ?_
  cases t with
  | none => exact .pure (Nat.le_refl _)
  | some t => exact .pure (Nat.le_refl _)

theorem affords_ahead (m : Mark) : Affords b.limit x (fun _ => x) (ahead m) := by
  refine affords_peek.bind fun t => ?_
  cases t with
  | none => exact .pure (Nat.le_refl _)
  | some t => exact .pure (Nat.le_refl _)

theorem affords_accept (m : Mark) : Affords b.limit x (fun _ => x) (accept m) := by
  refine (affords_ahead m).bind fun a => ?_
  cases a with
  | false => exact .pure (Nat.le_refl _)
  | true =>
    refine affords_next.bind fun t => .pure ?_
    cases t with
    | none => exact Nat.le_refl _
    | some t => exact Nat.le_add_right _ _

theorem affords_expect (m : Mark) : Affords b.limit x (fun _ => x + 2) (expect b m) := by
  refine affords_next.bind fun t => ?_
  cases t with
  | none => exact .throw (by simp [SyntaxError.IsTooDeep])
  | some t =>
    by_cases ht : t.token = .mark m
    · simp only [ht, ↓reduceIte]
      exact .pure (Nat.le_refl _)
    · simp only [ht, ↓reduceIte]
      exact .throw (by simp [SyntaxError.IsTooDeep])

theorem affords_name : Affords b.limit x (fun _ => x) (name b) := by
  refine affords_next.bind fun t => ?_
  rcases t with _ | ⟨t, l⟩
  · exact .throw (by simp [SyntaxError.IsTooDeep])
  cases t with
  | name y => exact .pure (Nat.le_add_right _ _)
  | number v => exact .throw (by simp [SyntaxError.IsTooDeep])
  | mark m => exact .throw (by simp [SyntaxError.IsTooDeep])

theorem affords_joint (minimum : Nat) :
    Affords b.limit x (fun j => j.elim x fun _ => x + 2) (joint minimum) := by
  constructor
  · intro c j c' _ hrun
    rcases joint_cases minimum c with ⟨t, j', ts, hc, -, -, hjoint⟩ | ⟨-, hjoint⟩
    · rw [hjoint] at hrun
      cases hrun
      simp only [Cursor.load, hc, List.length_cons, Option.elim_some]
      omega
    · rw [hjoint] at hrun
      cases hrun
      exact Nat.le_refl _
  · intro c e c' _ hrun
    rcases joint_cases minimum c with ⟨t, j', ts, -, -, -, hjoint⟩ | ⟨-, hjoint⟩
    · rw [hjoint] at hrun
      cases hrun
    · rw [hjoint] at hrun
      cases hrun

/-! ## Levels -/

theorem affords_enter (line : Nat) : Affords b.limit (x + 1) (fun _ => x) (enter b line) := by
  constructor
  · intro c a c' _ hrun
    obtain ⟨-, rfl⟩ := enter_eq_ok hrun
    simp only [Cursor.load]
    omega
  · intro c e c' hc hrun
    have hd : ¬ b.limit ≤ c.depth := by
      simp only [Cursor.load] at hc
      omega
    rw [enter, if_neg hd] at hrun
    cases hrun

theorem affords_release (levels : Nat) : Affords b.limit x (fun _ => x) (release levels) := by
  constructor
  · intro c a c' _ hrun
    cases hrun
    simp only [Cursor.load]
    omega
  · intro c e c' _ hrun
    cases hrun

theorem Affords.nested {α : Type} {gain : α → Nat} {p : Parser α} (h : Affords b.limit x gain p) :
    Affords b.limit (x + 1) gain (nested b p) := by
  refine affords_nextLine.bind fun line => (affords_enter line).bind fun _ => ?_
  constructor
  · intro c a c' hc hrun
    cases hp : p c with
    | ok a₁ c₁ =>
      simp only [hp] at hrun
      cases hrun
      have := h.ok c a c₁ hc hp
      simp only [Cursor.load] at this ⊢
      omega
    | error e₁ c₁ =>
      simp only [hp] at hrun
      cases hrun
  · intro c e c' hc hrun
    cases hp : p c with
    | ok a₁ c₁ =>
      simp only [hp] at hrun
      cases hrun
    | error e₁ c₁ =>
      simp only [hp] at hrun
      cases hrun
      exact h.error c e c₁ hc hp

end

/-! ## Loops -/

section
variable {α : Type} {b : Bounds} {p : Parser α} (h : Affords b.limit 1 (fun _ => 1) p)
include h

theorem Affords.list (n : Nat) : Affords b.limit 1 (fun _ => 1) (list p n) := by
  induction n with
  | zero => exact h.bind fun _ => .pure (Nat.le_refl _)
  | succ n ih =>
    refine h.bind fun first => (affords_accept .comma).bind fun comma => ?_
    cases comma with
    | true => exact ih.bind fun _ => .pure (Nat.le_refl _)
    | false => exact .pure (Nat.le_refl _)

theorem Affords.listUpTo (closing : Mark) (n : Nat) :
    Affords b.limit 1 (fun _ => 1) (listUpTo b closing p n) := by
  induction n with
  | zero => exact h.bind fun _ => .pure (Nat.le_refl _)
  | succ n ih =>
    refine h.bind fun first => affords_next.bind fun t => ?_
    cases t with
    | none => exact .throw (by simp [SyntaxError.IsTooDeep])
    | some t =>
      simp only
      split
      · exact (ih.spare (by simp)).bind fun _ => .pure (Nat.le_refl _)
      · split
        · exact .pure (by simp)
        · exact .throw (by simp [SyntaxError.IsTooDeep])

theorem Affords.enclosed (closing : Mark) (n : Nat) :
    Affords b.limit 1 (fun _ => 1) (enclosed b closing p n) := by
  refine (affords_accept closing).bind fun closed => ?_
  cases closed with
  | true => exact .pure (Nat.le_refl _)
  | false => exact h.listUpTo closing n

end

/-! ## The grammar -/

section
variable {b : Bounds} {expression : Nat → Parser (Expr Unit)}
  (h : ∀ m, Affords b.limit 1 (fun _ => 1) (expression m))
include h

theorem affords_term (n : Nat) : Affords b.limit 0 (fun _ => 1) (term b expression n) := by
  refine affords_next.bind fun t => ?_
  rcases t with _ | ⟨t, l⟩
  · exact .throw (by simp [SyntaxError.IsTooDeep])
  simp only [Option.elim_some]
  cases t with
  | number v => exact .pure (by decide)
  | name y =>
    refine (affords_accept .openParen).bind fun call => ?_
    cases call with
    | true => exact (((h 0).enclosed .closeParen n).spare (by decide)).bind fun _ => .pure (by decide)
    | false => exact .pure (by decide)
  | mark m =>
    cases m with
    | openParen =>
      refine ((h 0).spare (by decide)).bind fun e => (affords_expect _).bind fun _ => ?_
      exact .pure (by decide)
    | _ => exact .throw (by simp [SyntaxError.IsTooDeep])

/-- The token of a joint pays for the level of the joint and for that of its right operand. -/
theorem affords_chain (m n opened : Nat) (left : Expr Unit) :
    Affords b.limit 1 (fun _ => 1) (chain b expression m n opened left) := by
  induction n generalizing opened left with
  | zero => exact .pure (Nat.le_refl _)
  | succ n ih =>
    refine (affords_joint m).bind fun j => ?_
    rcases j with _ | ⟨j, line⟩
    · exact .pure (Nat.le_refl _)
    refine (affords_enter line).bind fun _ => ((h _).spare (by decide)).bind fun right => ?_
    cases hcomb : j.combine line left right with
    | ok e => exact ih (opened + 1) e
    | error e => exact .throw (Joint.combine_ne_tooDeep hcomb)

theorem affords_operation (m n : Nat) :
    Affords b.limit 0 (fun _ => 1) (operation b expression m n) := by
  refine (affords_term h n).bind fun first => (affords_chain h m n 0 first).bind fun e => ?_
  exact (affords_release e.2).bind fun _ => .pure (Nat.le_refl _)

theorem affords_functionLiteral (n : Nat) :
    Affords b.limit 0 (fun _ => 1) (functionLiteral b expression n) := by
  refine (affords_expect .function).bind fun line => (affords_expect .openParen).bind fun _ => ?_
  refine ((affords_name.enclosed .closeParen n).spare (by decide)).bind fun params => ?_
  refine (affords_expect .arrow).bind fun _ => (affords_ahead .finish).bind fun finished => ?_
  cases finished with
  | true => exact (affords_expect .finish).bind fun _ => .pure (by decide)
  | false =>
    refine (((h 0).list n).spare (by decide)).bind fun body => ?_
    exact (affords_expect .finish).bind fun _ => .pure (by decide)

end

section
variable (b : Bounds)

theorem affords_expressionWithin (n m : Nat) :
    Affords b.limit 1 (fun _ => 1) (expressionWithin b n m) := by
  induction n generalizing m with
  | zero => exact (Affords.throw (by simp [SyntaxError.IsTooDeep])).nested
  | succ n ih =>
    refine Affords.nested ((affords_ahead .function).bind fun literal => ?_)
    cases literal with
    | true => exact affords_functionLiteral ih n
    | false => exact affords_operation ih m n

theorem affords_statementWithin (n : Nat) :
    Affords b.limit 1 (fun _ => 1) (statementWithin b n) := by
  refine affords_nextLine.bind fun line => ((affords_expressionWithin b n 0).list n).bind fun es => ?_
  exact (affords_expect .dot).bind fun _ => .pure (by decide)

theorem affords_statementsWithin (n : Nat) :
    Affords b.limit 1 (fun _ => 1) (statementsWithin b n) := by
  induction n with
  | zero => exact (affords_statementWithin b 0).bind fun _ => .pure (Nat.le_refl _)
  | succ n ih =>
    refine (affords_statementWithin b (n + 1)).bind fun first => affords_peek.bind fun t => ?_
    cases t with
    | none => exact .pure (Nat.le_refl _)
    | some t => exact ih.bind fun _ => .pure (Nat.le_refl _)

end

/-- Two levels for each token and one more are enough for any tokens, right or wrong. -/
theorem statements_ne_tooDeep {b : Bounds} {ts : List Located} (hb : 2 * ts.length + 1 ≤ b.limit)
    {e : SyntaxError} {c : Cursor} (h : statements b { rest := ts } = .error e c) (k : Nat) :
    ¬ e.IsTooDeep k :=
  (affords_statementsWithin b ts.length).error { rest := ts } e c
    (by simpa [Cursor.load] using hb) h k

/-! ## Lines -/

/-- An error is on the line of a token, or on the one that stands for the end. A map of lines that
moves no token and not the end changes nothing, so it does not move the error either. -/
theorem line_of_statements {b : Bounds} {c c' : Cursor} {e : SyntaxError}
    (h : statements b c = .error e c') :
    e.line = b.endLine ∨ ∃ t ∈ c.rest, t.line = e.line := by
  by_contra hnot
  have hend : b.endLine ≠ e.line := fun heq => hnot (.inl heq.symm)
  have htokens : ∀ t ∈ c.rest, t.line ≠ e.line := fun t ht heq => hnot (.inr ⟨t, ht, heq⟩)
  let f : Nat → Nat := fun l => if l = e.line then l + 1 else l
  have hb : b.mapLines f = b := by
    simp [Bounds.mapLines, f, hend]
  have hc : c.mapLines f = c := by
    have hrest : c.rest.map (Located.mapLines f) = c.rest := by
      refine (List.map_congr_left fun t ht => ?_).trans (List.map_id _)
      simp [Located.mapLines, f, htokens t ht]
    simp only [Cursor.mapLines, hrest]
  have hmoved := statements_mapLines (f := f) b c
  rw [hb, hc, h] at hmoved
  have he : (e.mapLines f).line = e.line := by
    injection hmoved with he
    rw [← he]
  cases e <;> simp [SyntaxError.mapLines, SyntaxError.line, f] at he

end Parser

/-! ## Source texts -/

section
variable {limit : Nat} {ts : List Located} {e : SyntaxError}

theorem parseTokens_ne_tooDeep (hlimit : 2 * ts.length + 1 ≤ limit)
    (h : parseTokens limit ts = .error e) (k : Nat) : ¬ e.IsTooDeep k := by
  cases hr : Parser.statements ⟨limit, endLine ts⟩ ⟨ts, 0⟩ with
  | ok program c =>
    rw [parseTokens_of_ok hr] at h
    cases h
  | error e' c =>
    rw [parseTokens_of_error hr] at h
    cases h
    exact Parser.statements_ne_tooDeep hlimit hr k

/-- The end of the tokens is on the line of the last one. -/
theorem line_of_parseTokens (h : parseTokens limit ts = .error e) :
    (∃ t ∈ ts, t.line = e.line) ∨ ts = [] ∧ e.line = 1 := by
  cases hr : Parser.statements ⟨limit, endLine ts⟩ ⟨ts, 0⟩ with
  | ok program c =>
    rw [parseTokens_of_ok hr] at h
    cases h
  | error e' c =>
    rw [parseTokens_of_error hr] at h
    cases h
    rcases Parser.line_of_statements hr with hend | htoken
    · simp only [endLine] at hend
      cases hlast : ts.getLast? with
      | none =>
        rw [hlast] at hend
        exact .inr ⟨List.getLast?_eq_none_iff.1 hlast, hend⟩
      | some t =>
        rw [hlast] at hend
        exact .inl ⟨t, List.mem_of_getLast? hlast, hend.symm⟩
    · exact .inl htoken

end

theorem parse_ne_tooDeep {limit : Nat} {source : String} {e : SyntaxError}
    (hlimit : 2 * (tokensOf source).length + 1 ≤ limit) (h : parse limit source = .error e)
    (k : Nat) : ¬ e.IsTooDeep k := by
  unfold parse at h
  cases ht : tokenize source with
  | error e' =>
    rw [ht] at h
    cases h
    obtain ⟨c, line, rfl⟩ := unknown_of_tokenize ht
    simp [SyntaxError.IsTooDeep]
  | ok ts =>
    rw [ht] at h
    rw [tokensOf_of_tokenize ht] at hlimit
    exact parseTokens_ne_tooDeep hlimit h k

theorem line_of_parse {limit line : Nat} {source : String} (k : Nat)
    (h : parse limit source = .error (.nestingTooDeep k line)) :
    (∃ t ∈ tokensOf source, t.line = line) ∨ tokensOf source = [] ∧ line = 1 := by
  unfold parse at h
  cases ht : tokenize source with
  | error e =>
    rw [ht] at h
    obtain ⟨c, l, rfl⟩ := unknown_of_tokenize ht
    cases h
  | ok ts =>
    rw [ht] at h
    rw [tokensOf_of_tokenize ht]
    exact line_of_parseTokens h

/-- The smallest limit that is no reason to fail. -/
theorem exists_least_limit (source : String) :
    ∃ n ≤ 2 * (tokensOf source).length + 1,
      (∀ k line, parse n source ≠ .error (.nestingTooDeep k line)) ∧
      ∀ limit < n, ∃ line, parse limit source = .error (.nestingTooDeep limit line) := by
  classical
  have henough : ∃ n, ∀ k line, parse n source ≠ .error (.nestingTooDeep k line) :=
    ⟨_, fun k line h => parse_ne_tooDeep (Nat.le_refl _) h k ⟨line, rfl⟩⟩
  refine ⟨Nat.find henough, Nat.find_min' henough ?_, Nat.find_spec henough, ?_⟩
  · exact fun k line h => parse_ne_tooDeep (Nat.le_refl _) h k ⟨line, rfl⟩
  · intro limit hlimit
    rcases parse_limit (Nat.le_of_lt hlimit) source with hsame | hdeep
    · refine absurd (fun k line => ?_) (Nat.find_min henough hlimit)
      rw [hsame]
      exact Nat.find_spec henough k line
    · exact hdeep

/-- The nesting limit is a sharp threshold. From some limit on, of which one level and two for each
token are enough, a source text has one and the same outcome, which has nothing to do with nesting;
below it, it fails with the error of the limit, on the line of a token. A text with an unknown
character fails for that under every limit. -/
theorem parse_threshold (source : String) :
    ∃ n ≤ 2 * (tokensOf source).length + 1,
      (∃ outcome, (∀ limit, n ≤ limit → parse limit source = outcome) ∧
        ∀ k line, outcome ≠ .error (.nestingTooDeep k line)) ∧
      (∀ limit < n, ∃ line, parse limit source = .error (.nestingTooDeep limit line) ∧
        ((∃ t ∈ tokensOf source, t.line = line) ∨ tokensOf source = [] ∧ line = 1)) ∧
      ((∃ e, tokenize source = .error e) → n = 0) := by
  obtain ⟨n, hle, henough, hbelow⟩ := exists_least_limit source
  refine ⟨n, hle, ⟨parse n source, fun limit hlimit => ?_, henough⟩, fun limit hlimit => ?_, ?_⟩
  · rcases parse_limit hlimit source with hsame | ⟨line, hdeep⟩
    · exact hsame.symm
    · exact absurd hdeep (henough n line)
  · obtain ⟨line, hline⟩ := hbelow limit hlimit
    exact ⟨line, hline, line_of_parse limit hline⟩
  · rintro ⟨e, he⟩
    have hparse : ∀ limit, parse limit source = .error e := fun limit => by
      rw [parse, he]
      rfl
    by_contra hn
    obtain ⟨line, hline⟩ := hbelow 0 (Nat.pos_of_ne_zero hn)
    exact henough 0 line ((hparse n).trans ((hparse 0).symm.trans hline))

/-- The threshold of `(x).` is two levels. -/
example : parse 2 "(x)." = .ok [⟨[.var "x" 1], 1⟩] ∧
    parse 1 "(x)." = .error (.nestingTooDeep 1 1) :=
  ⟨by decide +kernel, by decide +kernel⟩

end Reckon
