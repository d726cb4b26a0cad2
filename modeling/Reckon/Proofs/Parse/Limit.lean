import Reckon.Proofs.Parse.Run

/-!
# The nesting limit as a guard

Under a smaller limit the parser does what it does under a larger one, or fails because the smaller
limit is reached (`guarded_statements`): the limit decides nothing else.
-/

set_option autoImplicit false

namespace Reckon

/-- The error of a nesting limit. -/
def SyntaxError.IsTooDeep (limit : Nat) (e : SyntaxError) : Prop :=
  ∃ line, e = .nestingTooDeep limit line

namespace Parser

section
variable {α : Type} {b : Bounds} {k : Nat} {E : SyntaxError → Prop} {p q : Parser α}

theorem guarded_enter (hk : b.limit ≤ k) (line : Nat) :
    Guarded (·.IsTooDeep b.limit) (enter b line) (enter { b with limit := k } line) := by
  intro c
  by_cases hd : b.limit ≤ c.depth
  · exact .inr ⟨_, c, ⟨line, rfl⟩, by rw [enter, if_pos hd]⟩
  · refine .inl ?_
    rw [enter, enter, if_neg hd, if_neg (by simp only; omega)]

theorem guarded_nested (hk : b.limit ≤ k) (h : Guarded (·.IsTooDeep b.limit) p q) :
    Guarded (·.IsTooDeep b.limit) (nested b p) (nested ({ b with limit := k } : Bounds) q) := by
  intro c
  rw [nested_eq, nested_eq]
  by_cases hd : b.limit ≤ c.depth
  · rw [if_pos hd]
    exact .inr ⟨_, c, ⟨_, rfl⟩, rfl⟩
  · rw [if_neg hd, if_neg (by simp only; omega)]
    rcases h { c with depth := c.depth + 1 } with heq | ⟨e, c', he, herr⟩
    · rw [heq]
      exact .inl rfl
    · rw [herr]
      exact .inr ⟨e, _, he, rfl⟩

theorem guarded_list (h : Guarded E p q) (n : Nat) : Guarded E (list p n) (list q n) := by
  induction n with
  | zero => exact h.bind fun _ => .refl _
  | succ n ih =>
    refine h.bind fun first => (Guarded.refl _).bind fun comma => ?_
    cases comma with
    | true => exact ih.bind fun _ => .refl _
    | false => exact .refl _

theorem guarded_listUpTo (h : Guarded E p q) (closing : Mark) (n : Nat) :
    Guarded E (listUpTo b closing p n) (listUpTo { b with limit := k } closing q n) := by
  induction n with
  | zero => exact h.bind fun _ => .refl _
  | succ n ih =>
    refine h.bind fun first => (Guarded.refl _).bind fun t => ?_
    cases t with
    | none => exact .refl _
    | some t =>
      simp only
      split
      · exact ih.bind fun _ => .refl _
      · exact .refl _

theorem guarded_enclosed (h : Guarded E p q) (closing : Mark) (n : Nat) :
    Guarded E (enclosed b closing p n) (enclosed { b with limit := k } closing q n) := by
  refine (Guarded.refl _).bind fun closed => ?_
  cases closed with
  | true => exact .refl _
  | false => exact guarded_listUpTo h closing n

end

section
variable {b : Bounds} {k : Nat} {expression other : Nat → Parser (Expr Unit)}
  (hk : b.limit ≤ k) (h : ∀ m, Guarded (·.IsTooDeep b.limit) (expression m) (other m))
include hk h

omit hk in
theorem guarded_term (n : Nat) : Guarded (·.IsTooDeep b.limit) (term b expression n)
    (term { b with limit := k } other n) := by
  refine (Guarded.refl _).bind fun t => ?_
  rcases t with _ | ⟨t, line⟩
  · exact .refl _
  cases t with
  | number x => exact .refl _
  | name x =>
    refine (Guarded.refl _).bind fun call => ?_
    cases call with
    | true => exact (guarded_enclosed (h 0) .closeParen n).bind fun _ => .refl _
    | false => exact .refl _
  | mark m =>
    cases m with
    | openParen => exact (h 0).bind fun _ => .refl _
    | _ => exact .refl _

theorem guarded_chain (m n opened : Nat) (left : Expr Unit) :
    Guarded (·.IsTooDeep b.limit) (chain b expression m n opened left)
      (chain ({ b with limit := k } : Bounds) other m n opened left) := by
  induction n generalizing opened left with
  | zero => exact .refl _
  | succ n ih =>
    refine (Guarded.refl _).bind fun joint => ?_
    rcases joint with _ | ⟨j, line⟩
    · exact .refl _
    refine (guarded_enter hk line).bind fun _ => (h _).bind fun right => ?_
    cases j.combine line left right with
    | ok e => exact ih (opened + 1) e
    | error e => exact .refl _

theorem guarded_operation (m n : Nat) : Guarded (·.IsTooDeep b.limit)
    (operation b expression m n) (operation ({ b with limit := k } : Bounds) other m n) := by
  refine (guarded_term h n).bind fun first => ?_
  exact (guarded_chain hk h m n 0 first).bind fun _ => .refl _

omit hk in
theorem guarded_functionLiteral (n : Nat) : Guarded (·.IsTooDeep b.limit)
    (functionLiteral b expression n) (functionLiteral { b with limit := k } other n) := by
  refine (Guarded.refl _).bind fun line => (Guarded.refl _).bind fun _ => ?_
  refine (guarded_enclosed (Guarded.refl _) .closeParen n).bind fun params => ?_
  refine (Guarded.refl _).bind fun _ => (Guarded.refl _).bind fun finished => ?_
  cases finished with
  | true => exact .refl _
  | false => exact (guarded_list (h 0) n).bind fun _ => .refl _

end

variable {b : Bounds} {k : Nat}

theorem guarded_expressionWithin (hk : b.limit ≤ k) (n m : Nat) :
    Guarded (·.IsTooDeep b.limit) (expressionWithin b n m)
      (expressionWithin ({ b with limit := k } : Bounds) n m) := by
  induction n generalizing m with
  | zero => exact guarded_nested hk (.refl _)
  | succ n ih =>
    refine guarded_nested hk ((Guarded.refl _).bind fun literal => ?_)
    cases literal with
    | true => exact guarded_functionLiteral ih n
    | false => exact guarded_operation hk ih m n

theorem guarded_statementWithin (hk : b.limit ≤ k) (n : Nat) :
    Guarded (·.IsTooDeep b.limit) (statementWithin b n)
      (statementWithin ({ b with limit := k } : Bounds) n) := by
  refine (Guarded.refl _).bind fun line => ?_
  exact (guarded_list (guarded_expressionWithin hk n 0) n).bind fun _ => .refl _

theorem guarded_statementsWithin (hk : b.limit ≤ k) (n : Nat) :
    Guarded (·.IsTooDeep b.limit) (statementsWithin b n)
      (statementsWithin ({ b with limit := k } : Bounds) n) := by
  induction n with
  | zero => exact (guarded_statementWithin hk 0).bind fun _ => .refl _
  | succ n ih =>
    refine (guarded_statementWithin hk (n + 1)).bind fun first => (Guarded.refl _).bind fun t => ?_
    cases t with
    | none => exact .refl _
    | some t => exact ih.bind fun _ => .refl _

theorem guarded_statements (hk : b.limit ≤ k) :
    Guarded (·.IsTooDeep b.limit) (statements b) (statements { b with limit := k }) :=
  fun c => guarded_statementsWithin hk c.rest.length c

end Parser

/-- Of two limits the smaller one changes what a source text stands for only by its own error. -/
theorem parse_limit {limit limit' : Nat} (h : limit ≤ limit') (source : String) :
    parse limit source = parse limit' source ∨
      ∃ line, parse limit source = .error (.nestingTooDeep limit line) := by
  unfold parse
  cases tokenize source with
  | error e => exact .inl rfl
  | ok tokens =>
    have hg := Parser.guarded_statements
      (b := ⟨limit, (tokens.getLast?.map Located.line).getD 1⟩) h { rest := tokens }
    show parseTokens limit tokens = parseTokens limit' tokens ∨
      ∃ line, parseTokens limit tokens = .error (.nestingTooDeep limit line)
    unfold parseTokens
    rcases hg with heq | ⟨e, c, ⟨line, rfl⟩, herr⟩
    · exact .inl (by simp only [heq])
    · exact .inr ⟨line, by simp only [herr]⟩

end Reckon
