import Reckon.Parse.Grammar
import Reckon.Proofs.Lines
import Reckon.Proofs.Simulation

/-!
# The parser does not look at lines

Parsing moved tokens gives the moved tree or the moved error (`statements_mapLines`): the parser
copies lines and decides nothing by them.
-/

set_option autoImplicit false

namespace Reckon

theorem Joint.combine_mapLines (f : Nat → Nat) (j : Joint) (line : Nat) (left right : Expr Unit) :
    j.combine (f line) (left.mapLines f) (right.mapLines f) =
      match j.combine line left right with
      | .ok e => .ok (e.mapLines f)
      | .error e => .error (e.mapLines f) := by
  cases j with
  | assign => cases left <;> rfl
  | arithmetic op => rfl

namespace Parser

variable {α β : Type} {f : Nat → Nat} {b : Bounds}

/-- On tokens moved by `f`, the parser `q` does what `p` does: its result is the image under `g` of
that of `p`, and its errors and the cursors that it leaves are moved by `f`. -/
def Moves (f : Nat → Nat) (g : α → α) (p q : Parser α) : Prop :=
  Simulates (fun c c' => c' = c.mapLines f) (fun e e' => e' = e.mapLines f) (fun a a' => a' = g a)
    p q

theorem Moves.bind {g : α → α} {h : β → β} {p q : Parser α} {k k' : α → Parser β}
    (hp : Moves f g p q) (hk : ∀ a, Moves f h (k a) (k' (g a))) :
    Moves f h (p >>= k) (q >>= k') := by
  refine Simulates.bind hp fun a a' ha => ?_
  subst ha
  exact hk a

theorem moves_pure {g : α → α} {a a' : α} (h : a' = g a) :
    Moves f g (pure a : Parser α) (pure a') :=
  Simulates.pure h

theorem moves_throw {g : α → α} {e e' : SyntaxError} (h : e' = e.mapLines f) :
    Moves f g (throw e : Parser α) (throw e') :=
  Simulates.throw h

/-! ## Single tokens -/

theorem moves_peek : Moves f (Option.map (Located.mapLines f)) peek peek := by
  intro c c' hc
  subst hc
  exact .ok (List.head?_map ..) rfl

theorem moves_next : Moves f (Option.map (Located.mapLines f)) next next := by
  intro c c' hc
  subst hc
  refine .ok (List.head?_map ..) ?_
  simp only [Cursor.mapLines, List.map_tail]

theorem moves_nextLine : Moves f f (nextLine b) (nextLine (b.mapLines f)) := by
  refine moves_peek.bind fun t => ?_
  cases t with
  | none => exact moves_pure rfl
  | some t => exact moves_pure rfl

theorem moves_ahead (m : Mark) : Moves f id (ahead m) (ahead m) := by
  refine moves_peek.bind fun t => ?_
  cases t with
  | none => exact moves_pure rfl
  | some t => exact moves_pure rfl

theorem moves_accept (m : Mark) : Moves f id (accept m) (accept m) := by
  refine (moves_ahead m).bind fun a => ?_
  cases a with
  | false => exact moves_pure rfl
  | true => exact moves_next.bind fun _ => moves_pure rfl

theorem moves_enter (line : Nat) : Moves f id (enter b line) (enter (b.mapLines f) (f line)) := by
  intro c c' hc
  subst hc
  unfold enter
  by_cases hd : b.limit ≤ c.depth
  · rw [if_pos hd, if_pos (by simpa [Bounds.mapLines, Cursor.mapLines] using hd)]
    exact .error rfl rfl
  · rw [if_neg hd, if_neg (by simpa [Bounds.mapLines, Cursor.mapLines] using hd)]
    exact .ok rfl rfl

theorem moves_release (levels : Nat) : Moves f id (release levels) (release levels) := by
  intro c c' hc
  subst hc
  exact .ok rfl rfl

theorem Moves.nested {g : α → α} {p q : Parser α} (h : Moves f g p q) :
    Moves f g (nested b p) (nested (b.mapLines f) q) := by
  refine moves_nextLine.bind fun line => ?_
  refine (moves_enter line).bind fun _ => ?_
  intro c c' hc
  have hr := h c c' hc
  dsimp only
  generalize p c = r, q c' = r' at hr ⊢
  cases hr with
  | ok ha hs =>
    subst hs
    exact .ok ha rfl
  | error he hs =>
    subst hs
    exact .error he rfl

theorem moves_expect (m : Mark) : Moves f f (expect b m) (expect (b.mapLines f) m) := by
  refine moves_next.bind fun t => ?_
  cases t with
  | none => exact moves_throw rfl
  | some t =>
    by_cases ht : t.token = .mark m
    · simp only [Option.map_some, Located.mapLines, ht, ↓reduceIte]
      exact moves_pure rfl
    · simp only [Option.map_some, Located.mapLines, ht, ↓reduceIte]
      exact moves_throw rfl

theorem moves_name : Moves f id (name b) (name (b.mapLines f)) := by
  refine moves_next.bind fun t => ?_
  cases t with
  | none => exact moves_throw rfl
  | some t =>
    obtain ⟨t, l⟩ := t
    cases t with
    | name x => exact moves_pure rfl
    | number x => exact moves_throw rfl
    | mark m => exact moves_throw rfl

theorem moves_joint (minimum : Nat) :
    Moves f (Option.map (Prod.map id f)) (joint minimum) (joint minimum) := by
  refine moves_peek.bind fun t => ?_
  cases t with
  | none => exact moves_pure rfl
  | some t =>
    simp only [Option.map_some, Located.mapLines]
    cases Joint.ofToken? t.token with
    | none => exact moves_pure rfl
    | some j =>
      by_cases hj : j.continues minimum
      · simp only [hj, ↓reduceIte]
        exact moves_next.bind fun _ => moves_pure rfl
      · simp only [hj]
        exact moves_pure rfl

/-! ## Loops -/

theorem Moves.list {g : α → α} {p q : Parser α} (h : Moves f g p q) (n : Nat) :
    Moves f (List.map g) (list p n) (list q n) := by
  induction n with
  | zero => exact h.bind fun _ => moves_pure rfl
  | succ n ih =>
    refine h.bind fun a => ?_
    refine (moves_accept _).bind fun more => ?_
    cases more with
    | true => exact ih.bind fun _ => moves_pure rfl
    | false => exact moves_pure rfl

theorem Moves.listUpTo {g : α → α} {p q : Parser α} (h : Moves f g p q) (closing : Mark) (n : Nat) :
    Moves f (List.map g) (listUpTo b closing p n) (listUpTo (b.mapLines f) closing q n) := by
  induction n with
  | zero => exact h.bind fun _ => moves_pure rfl
  | succ n ih =>
    refine h.bind fun a => ?_
    refine moves_next.bind fun t => ?_
    cases t with
    | none => exact moves_throw rfl
    | some t =>
      simp only [Option.map_some, Located.mapLines]
      by_cases hcomma : t.token = .mark .comma
      · rw [if_pos hcomma, if_pos hcomma]
        exact ih.bind fun _ => moves_pure rfl
      · rw [if_neg hcomma, if_neg hcomma]
        by_cases hclosing : t.token = .mark closing
        · rw [if_pos hclosing, if_pos hclosing]
          exact moves_pure rfl
        · rw [if_neg hclosing, if_neg hclosing]
          exact moves_throw rfl

theorem Moves.enclosed {g : α → α} {p q : Parser α} (h : Moves f g p q) (closing : Mark) (n : Nat) :
    Moves f (List.map g) (enclosed b closing p n) (enclosed (b.mapLines f) closing q n) := by
  refine (moves_accept closing).bind fun closed => ?_
  cases closed with
  | true => exact moves_pure rfl
  | false => exact h.listUpTo closing n

/-! ## The grammar -/

section
variable {expression other : Nat → Parser (Expr Unit)}
  (h : ∀ m, Moves f (Expr.mapLines f) (expression m) (other m))
include h

theorem moves_term (n : Nat) :
    Moves f (Expr.mapLines f) (term b expression n) (term (b.mapLines f) other n) := by
  refine moves_next.bind fun t => ?_
  cases t with
  | none => exact moves_throw rfl
  | some t =>
    obtain ⟨t, l⟩ := t
    cases t with
    | number x => exact moves_pure rfl
    | name x =>
      refine (moves_accept .openParen).bind fun call => ?_
      cases call with
      | true =>
        refine ((h 0).enclosed .closeParen n).bind fun arguments => moves_pure ?_
        rw [Expr.mapLines, mapLinesAll_eq]
      | false => exact moves_pure rfl
    | mark m =>
      cases m with
      | openParen => exact (h 0).bind fun e => (moves_expect _).bind fun _ => moves_pure rfl
      | _ => exact moves_throw rfl

theorem moves_chain (minimum n opened : Nat) (left : Expr Unit) :
    Moves f (Prod.map (Expr.mapLines f) id) (chain b expression minimum n opened left)
      (chain (b.mapLines f) other minimum n opened (left.mapLines f)) := by
  induction n generalizing opened left with
  | zero => exact moves_pure rfl
  | succ n ih =>
    refine (moves_joint minimum).bind fun j => ?_
    cases j with
    | none => exact moves_pure rfl
    | some j =>
      obtain ⟨j, line⟩ := j
      refine (moves_enter line).bind fun _ => ?_
      refine (h j.precedence).bind fun right => ?_
      simp only [id, Joint.combine_mapLines]
      cases j.combine line left right with
      | ok e => exact ih (opened + 1) e
      | error e => exact moves_throw rfl

theorem moves_operation (minimum n : Nat) :
    Moves f (Expr.mapLines f) (operation b expression minimum n)
      (operation (b.mapLines f) other minimum n) := by
  refine (moves_term h n).bind fun first => ?_
  refine (moves_chain h minimum n 0 first).bind fun e => ?_
  exact (moves_release e.2).bind fun _ => moves_pure rfl

theorem moves_functionLiteral (n : Nat) :
    Moves f (Expr.mapLines f) (functionLiteral b expression n)
      (functionLiteral (b.mapLines f) other n) := by
  refine (moves_expect .function).bind fun line => ?_
  refine (moves_expect .openParen).bind fun _ => ?_
  refine (moves_name.enclosed .closeParen n).bind fun params => ?_
  refine (moves_expect .arrow).bind fun _ => ?_
  have hend : ∀ body, Moves f (Expr.mapLines f)
      (expect b .finish >>= fun _ => pure (.function () params body line))
      (expect (b.mapLines f) .finish >>= fun _ =>
        pure (.function () params (body.map (Expr.mapLines f)) (f line))) := fun body =>
    (moves_expect .finish).bind fun _ => moves_pure (by rw [Expr.mapLines, mapLinesAll_eq])
  refine (moves_ahead .finish).bind fun a => ?_
  simp only [List.map_id, id]
  cases a with
  | true => exact hend []
  | false => exact ((h 0).list n).bind hend

end

theorem moves_expressionWithin (n m : Nat) :
    Moves f (Expr.mapLines f) (expressionWithin b n m) (expressionWithin (b.mapLines f) n m) := by
  induction n generalizing m with
  | zero => exact (moves_throw rfl).nested
  | succ n ih =>
    refine Moves.nested ((moves_ahead .function).bind fun a => ?_)
    cases a with
    | true => exact moves_functionLiteral ih n
    | false => exact moves_operation ih m n

theorem moves_statementWithin (n : Nat) :
    Moves f (Statement.mapLines f) (statementWithin b n) (statementWithin (b.mapLines f) n) := by
  refine moves_nextLine.bind fun line => ?_
  refine ((moves_expressionWithin n 0).list n).bind fun es => ?_
  refine (moves_expect .dot).bind fun _ => moves_pure ?_
  rw [Statement.mapLines, mapLinesAll_eq]

theorem moves_statementsWithin (n : Nat) :
    Moves f (List.map (Statement.mapLines f)) (statementsWithin b n)
      (statementsWithin (b.mapLines f) n) := by
  induction n with
  | zero => exact (moves_statementWithin 0).bind fun _ => moves_pure rfl
  | succ n ih =>
    refine (moves_statementWithin (n + 1)).bind fun first => ?_
    refine moves_peek.bind fun t => ?_
    cases t with
    | none => exact moves_pure rfl
    | some t => exact ih.bind fun _ => moves_pure rfl

theorem statements_mapLines (b : Bounds) (c : Cursor) :
    statements (b.mapLines f) (c.mapLines f) =
      match statements b c with
      | .ok program c' => .ok (program.map (Statement.mapLines f)) (c'.mapLines f)
      | .error e c' => .error (e.mapLines f) (c'.mapLines f) := by
  have hlen : (c.mapLines f).rest.length = c.rest.length := List.length_map ..
  have hr := moves_statementsWithin (f := f) (b := b) c.rest.length c _ rfl
  unfold statements
  rw [hlen]
  generalize statementsWithin b _ c = r, statementsWithin (b.mapLines f) _ _ = r' at hr
  cases hr with
  | ok ha hs => rw [ha, hs]
  | error he hs => rw [he, hs]

end Parser

end Reckon
