import Reckon.Proofs.Parse.Run

/-!
# Parsing undoes printing

`Printed g e w`: the tokens `w` spell the tree `e`, inside parentheses of its own when `g` is true.
Parentheses stand where the operators ask for them (`groupedLeft`, `groupedRight`) and wherever else
one likes. The token that a node is named for carries the line of the node; all others stand on any
line. `expression_printed` says that the parser finds the tree again.

The proof goes along the spine of a tree: the term that its tokens start with, and the operators
that the loop folds onto this term before the whole tree stands to their left (`Spine`). -/

set_option autoImplicit false

namespace Reckon

namespace Operator

def mark : Operator → Mark
  | add => .plus
  | subtract => .minus
  | multiply => .star
  | divide => .slash

/-- Whether an operation with the operator `inner` has to stand in parentheses to the left of `op`: a
sum or a difference in a product or a quotient. -/
def groupsLeft (op inner : Operator) : Bool :=
  match op, inner with
  | multiply, add | multiply, subtract | divide, add | divide, subtract => true
  | _, _ => false

/-- Whether an operation with the operator `inner` has to stand in parentheses to the right of `op`: a
sum or a difference in any operation, a product or a quotient in a product or a quotient. -/
def groupsRight (op inner : Operator) : Bool :=
  match op, inner with
  | add, add | add, subtract | subtract, add | subtract, subtract => true
  | multiply, _ | divide, _ => true
  | _, _ => false

/-- The parentheses are those that precedence asks for. -/
theorem groupsLeft_iff (op inner : Operator) :
    op.groupsLeft inner = true ↔ inner.precedence < op.precedence := by
  cases op <;> cases inner <;> decide

theorem groupsRight_iff (op inner : Operator) :
    op.groupsRight inner = true ↔ inner.precedence ≤ op.precedence := by
  cases op <;> cases inner <;> decide

end Operator

/-- Whether a tree has to stand in parentheses to the left of an operator: an assignment, a function,
or an operation that would be taken apart. -/
def groupedLeft (op : Operator) : Expr Unit → Bool
  | .assign .. | .function .. => true
  | .arithmetic inner .. => op.groupsLeft inner
  | _ => false

/-- Whether a tree has to stand in parentheses to the right of an operator: an assignment, a function,
or an operation that would be taken apart. -/
def groupedRight (op : Operator) : Expr Unit → Bool
  | .assign .. | .function .. => true
  | .arithmetic inner .. => op.groupsRight inner
  | _ => false

inductive PrintedNames : List String → List Located → Prop
  | nil : PrintedNames [] []
  | last (x : String) (l : Nat) : PrintedNames [x] [⟨.name x, l⟩]
  | more (x y : String) (l l' : Nat) {xs : List String} {w : List Located} :
      PrintedNames (y :: xs) w →
      PrintedNames (x :: y :: xs) (⟨.name x, l⟩ :: ⟨.mark .comma, l'⟩ :: w)

mutual

inductive Printed : Bool → Expr Unit → List Located → Prop
  | number (x : Float) (l : Nat) : Printed false (.number x l) [⟨.number x, l⟩]
  | var (x : String) (l : Nat) : Printed false (.var x l) [⟨.name x, l⟩]
  | arithmetic (op : Operator) (l : Nat) {g h : Bool} {left right : Expr Unit}
      {v w : List Located} :
      Printed g left v → (groupedLeft op left → g = true) →
      Printed h right w → (groupedRight op right → h = true) →
      Printed false (.arithmetic op left right l) (v ++ ⟨.mark op.mark, l⟩ :: w)
  | assign (x : String) (l l' : Nat) {g : Bool} {value : Expr Unit} {w : List Located} :
      Printed g value w →
      Printed false (.assign x value l) (⟨.name x, l'⟩ :: ⟨.mark .equals, l⟩ :: w)
  | function (l l' l₁ l₂ l₃ : Nat) {params : List String} {body : List (Expr Unit)}
      {v w : List Located} : PrintedNames params v → PrintedAll body w →
      Printed false (.function () params body l)
        (⟨.mark .function, l⟩ :: ⟨.mark .openParen, l'⟩ ::
          (v ++ ⟨.mark .closeParen, l₁⟩ :: ⟨.mark .arrow, l₂⟩ :: (w ++ [⟨.mark .finish, l₃⟩])))
  | call (x : String) (l l' l₁ : Nat) {arguments : List (Expr Unit)} {w : List Located} :
      PrintedAll arguments w → Printed false (.call x arguments l)
        (⟨.name x, l⟩ :: ⟨.mark .openParen, l'⟩ :: (w ++ [⟨.mark .closeParen, l₁⟩]))
  | group (l l' : Nat) {g : Bool} {e : Expr Unit} {w : List Located} : Printed g e w →
      Printed true e (⟨.mark .openParen, l⟩ :: (w ++ [⟨.mark .closeParen, l'⟩]))

/-- Trees with a comma between each two of them. -/
inductive PrintedAll : List (Expr Unit) → List Located → Prop
  | nil : PrintedAll [] []
  | last {g : Bool} {e : Expr Unit} {w : List Located} : Printed g e w → PrintedAll [e] w
  | more (l : Nat) {g : Bool} {e e' : Expr Unit} {es : List (Expr Unit)} {v w : List Located} :
      Printed g e v → PrintedAll (e' :: es) w →
      PrintedAll (e :: e' :: es) (v ++ ⟨.mark .comma, l⟩ :: w)

end

/-! ## Every tree can be printed -/

theorem exists_printedNames : ∀ xs : List String, ∃ w, PrintedNames xs w
  | [] => ⟨_, .nil⟩
  | [x] => ⟨_, .last x 0⟩
  | x :: y :: xs => by
    obtain ⟨w, hw⟩ := exists_printedNames (y :: xs)
    exact ⟨_, .more x y 0 0 hw⟩

mutual

theorem exists_printed : ∀ e : Expr Unit, ∃ w, Printed false e w
  | .number x l => ⟨_, .number x l⟩
  | .var x l => ⟨_, .var x l⟩
  | .arithmetic op left right l => by
    obtain ⟨v, hv⟩ := exists_printed left
    obtain ⟨w, hw⟩ := exists_printed right
    exact ⟨_, .arithmetic op l (.group 0 0 hv) (fun _ => rfl) (.group 0 0 hw) (fun _ => rfl)⟩
  | .assign x value l => by
    obtain ⟨w, hw⟩ := exists_printed value
    exact ⟨_, .assign x l 0 hw⟩
  | .function () params body l => by
    obtain ⟨v, hv⟩ := exists_printedNames params
    obtain ⟨w, hw⟩ := exists_printedAll body
    exact ⟨_, .function l 0 0 0 0 hv hw⟩
  | .call x arguments l => by
    obtain ⟨w, hw⟩ := exists_printedAll arguments
    exact ⟨_, .call x l 0 0 hw⟩

theorem exists_printedAll : ∀ es : List (Expr Unit), ∃ w, PrintedAll es w
  | [] => ⟨_, .nil⟩
  | [e] => by
    obtain ⟨w, hw⟩ := exists_printed e
    exact ⟨w, .last hw⟩
  | e :: e' :: es => by
    obtain ⟨v, hv⟩ := exists_printed e
    obtain ⟨w, hw⟩ := exists_printedAll (e' :: es)
    exact ⟨_, .more 0 hv hw⟩

end

/-! ## Spines -/

open Reading

/-- How tightly a printed tree holds together: terms, and all that stands in parentheses, more than
any operator, a function literal not at all. -/
def tightness : Bool → Expr Unit → Nat
  | false, .arithmetic op .. => op.precedence
  | false, .assign .. => Joint.assign.precedence
  | false, .function .. => 0
  | _, _ => 4

theorem Operator.assign_lt_precedence (op : Operator) :
    Joint.assign.precedence < op.precedence ∧ op.precedence < 4 := by
  cases op <;> decide

theorem precedence_le_tightness {op : Operator} {g : Bool} {e : Expr Unit}
    (h : groupedLeft op e → g = true) : op.precedence ≤ tightness g e := by
  have hop := op.assign_lt_precedence
  cases g with
  | true => exact Nat.le_of_lt hop.2
  | false => cases e <;> simp_all [groupedLeft, Operator.groupsLeft_iff, tightness] <;> omega

theorem precedence_lt_tightness {op : Operator} {g : Bool} {e : Expr Unit}
    (h : groupedRight op e → g = true) : op.precedence < tightness g e := by
  have hop := op.assign_lt_precedence
  cases g with
  | true => exact hop.2
  | false => cases e <;> simp_all [groupedRight, Operator.groupsRight_iff, tightness]

/-- What may follow a tree as tight as `k` without taking a part of it away. -/
def Follows (k : Nat) : List Located → Prop
  | [] => True
  | t :: _ => t.token ≠ .mark .openParen ∧ ∀ j, Joint.ofToken? t.token = some j →
      ∃ op : Operator, j = .arithmetic op ∧ op.precedence ≤ k

theorem Reading.Ends.follows {rest : List Located} (h : Ends rest) (k : Nat) : Follows k rest := by
  cases rest with
  | nil => trivial
  | cons t rest => exact ⟨h.2, fun j hj => by rw [h.1] at hj; cases hj⟩

theorem Follows.notNext {k : Nat} {rest : List Located} (h : Follows k rest) :
    NotNext .openParen rest := by
  cases rest with
  | nil => trivial
  | cons t rest => exact h.1

theorem Follows.mono {k k' : Nat} {rest : List Located} (h : Follows k rest) (hk : k ≤ k') :
    Follows k' rest := by
  cases rest with
  | nil => trivial
  | cons t rest =>
    refine ⟨h.1, fun j hj => ?_⟩
    obtain ⟨op, rfl, hop⟩ := h.2 j hj
    exact ⟨op, rfl, Nat.le_trans hop hk⟩

theorem Follows.stops {k : Nat} {rest : List Located} (h : Follows k rest) : Stops k rest := by
  cases rest with
  | nil => trivial
  | cons t rest =>
    intro j hj
    obtain ⟨op, rfl, hop⟩ := h.2 j hj
    simpa [Joint.continues] using hop

theorem Operator.ofToken?_mark (op : Operator) :
    Joint.ofToken? (.mark op.mark) = some (.arithmetic op) := by
  cases op <;> rfl

theorem Operator.mark_ne_openParen (op : Operator) : Token.mark op.mark ≠ .mark .openParen := by
  cases op <;> decide

theorem follows_operator (op : Operator) (l : Nat) (rest : List Located) :
    Follows op.precedence (⟨.mark op.mark, l⟩ :: rest) := by
  refine ⟨op.mark_ne_openParen, fun j hj => ?_⟩
  rw [op.ofToken?_mark] at hj
  cases hj
  exact ⟨op, rfl, Nat.le_refl _⟩

/-- The tokens `w` start with a term `first`, and a loop that sees the rest of `w` and goes on below
the precedence `k` comes to stand behind `w` with `e` to its left, `i` levels deeper. -/
structure Spine (limit k : Nat) (e : Expr Unit) (w : List Located) (x u : List Located)
    (first : Expr Unit) (i : Nat) : Prop where
  eq : w = x ++ u
  levels : i ≤ u.length
  notNext : ∀ rest, NotNext .openParen rest → NotNext .openParen (u ++ rest)
  start : ReadsAsTerm limit x first
  loop : ∀ d m rest e' rest', m < k → Follows k rest → d + 2 * u.length ≤ limit →
    Chain limit (d + i) m rest e e' rest' → Chain limit d m (u ++ rest) first e' rest'

/-- The tree `e`, printed as `w`, is an operand as tight as `k`. -/
def HasSpine (limit k : Nat) (e : Expr Unit) (w : List Located) : Prop :=
  ∃ x u first i, Spine limit k e w x u first i

section
variable {limit : Nat}

theorem HasSpine.ofTerm {w : List Located} {e : Expr Unit} (h : ReadsAsTerm limit w e) (k : Nat) :
    HasSpine limit k e w :=
  ⟨w, [], e, 0, by simp, by simp, fun _ h => h, h, fun _ _ _ _ _ _ _ _ h => h⟩

/-- An operand is read above any precedence below its own. -/
theorem HasSpine.expression {k m d : Nat} {e : Expr Unit} {w rest : List Located}
    (h : HasSpine limit k e w) (hm : m < k) (hf : Follows k rest) (hs : Stops m rest)
    (hd : d + 2 * w.length + 1 ≤ limit) : Expression limit d m (w ++ rest) e rest := by
  obtain ⟨x, u, first, i, h⟩ := h
  have hw := h.eq
  subst hw
  simp only [List.length_append] at hd
  have hterm := h.start (d + 1) (u ++ rest) (h.notNext rest hf.notNext) (by omega)
  have hchain := h.loop (d + 1) m rest e rest hm hf (by omega) (.stop hs)
  rw [List.append_assoc]
  exact .operation (by omega) hterm hchain

/-- The operator of an operation goes onto the spine of its left operand. -/
theorem HasSpine.arithmetic {k k' : Nat} {op : Operator} {left right : Expr Unit}
    {v w : List Located} (hl : HasSpine limit k left v) (hk : op.precedence ≤ k)
    (hr : HasSpine limit k' right w) (hk' : op.precedence < k') (l : Nat) :
    HasSpine limit op.precedence (.arithmetic op left right l) (v ++ ⟨.mark op.mark, l⟩ :: w) := by
  obtain ⟨x, u, first, i, hl⟩ := hl
  have hv := hl.eq
  subst hv
  have hlevels := hl.levels
  refine ⟨x, u ++ ⟨.mark op.mark, l⟩ :: w, first, i + 1, by simp, ?_, fun rest _ => ?_, hl.start,
    fun d m rest e' rest' hm hf hd hc => ?_⟩
  · simp only [List.length_append, List.length_cons]
    omega
  · rw [List.append_assoc]
    exact hl.notNext _ op.mark_ne_openParen
  · simp only [List.length_append, List.length_cons] at hd
    rw [List.append_assoc]
    -- the loop first comes to `left`, `i` levels deep, and then meets the operator
    refine hl.loop d m _ e' rest' (by omega) ((follows_operator op l _).mono hk) (by omega) ?_
    have hright := hr.expression (d := d + i + 1) hk' (hf.mono (by omega)) hf.stops (by omega)
    exact .fold op.ofToken?_mark (by simpa [Joint.continues] using hm) (by omega) hright rfl hc

/-! ## Printed trees are read back -/

theorem PrintedNames.names {x : String} {xs : List String} {w : List Located}
    (h : PrintedNames (x :: xs) w) (rest : List Located) : Names (w ++ rest) (x :: xs) rest := by
  induction xs generalizing x w with
  | nil =>
    cases h with
    | last x l => exact .last
  | cons y xs ih =>
    cases h with
    | more x y l l' h => exact .more (ih h)

theorem PrintedNames.params {xs : List String} {w : List Located} (h : PrintedNames xs w) (l : Nat)
    (rest : List Located) : Params (w ++ ⟨.mark .closeParen, l⟩ :: rest) xs rest := by
  cases xs with
  | nil => cases h; exact .none
  | cons x xs => exact .some (h.names _)

/-- `e` is read from `w` wherever an expression or the value of an assignment may stand. -/
def ReadsAsValue (limit : Nat) (w : List Located) (e : Expr Unit) : Prop :=
  ∀ d m rest, m ≤ Joint.assign.precedence → Ends rest → d + 2 * w.length + 1 ≤ limit →
    Expression limit d m (w ++ rest) e rest

theorem HasSpine.readsAsValue {k : Nat} {e : Expr Unit} {w : List Located}
    (h : HasSpine limit k e w) (hk : Joint.assign.precedence < k) : ReadsAsValue limit w e :=
  fun _ m _ hm hrest hd =>
    h.expression (Nat.lt_of_le_of_lt hm hk) (hrest.follows k) (hrest.stops m) hd

theorem ReadsAsValue.assign {value : Expr Unit} {w : List Located} (h : ReadsAsValue limit w value)
    (x : String) (l l' : Nat) :
    ReadsAsValue limit (⟨.name x, l'⟩ :: ⟨.mark .equals, l⟩ :: w) (.assign x value l) := by
  intro d m rest hm hrest hd
  simp only [List.length_cons] at hd
  have hvalue := h (d + 1 + 1) _ rest (Nat.le_refl _) hrest (by omega)
  exact .operation (by omega) (.var (by simp [NotNext]))
    (.fold rfl rfl (by omega) hvalue rfl (.stop (hrest.stops m)))

mutual

/-- A printed tree is read back, and above an assignment it is an operand. -/
theorem Printed.reads {g : Bool} {e : Expr Unit} {w : List Located} : Printed g e w →
    ReadsAsValue limit w e ∧
      (Joint.assign.precedence < tightness g e → HasSpine limit (tightness g e) e w)
  | .number x l => by
    have h : HasSpine limit 4 (.number x l) [⟨.number x, l⟩] := .ofTerm (fun _ _ _ _ => .number) 4
    exact ⟨h.readsAsValue (by decide), fun _ => h⟩
  | .var x l => by
    have h : HasSpine limit 4 (.var x l) [⟨.name x, l⟩] := .ofTerm (fun _ _ hr _ => .var hr) 4
    exact ⟨h.readsAsValue (by decide), fun _ => h⟩
  | .arithmetic op l hleft hgl hright hgr => by
    -- an operand that is not tight enough stands in parentheses
    have hl := precedence_le_tightness hgl
    have hr := precedence_lt_tightness hgr
    have hop := op.assign_lt_precedence.1
    have h := (hleft.reads.2 (by omega)).arithmetic hl (hright.reads.2 (by omega)) hr l
    exact ⟨h.readsAsValue hop, fun _ => h⟩
  | .assign x l l' hvalue =>
    ⟨hvalue.reads.1.assign x l l', fun h => absurd h (Nat.lt_irrefl _)⟩
  | .function l l' l₁ l₂ l₃ hparams hbody => by
    refine ⟨fun d m rest _ _ hd => ?_, fun h => absurd h (Nat.not_lt_zero _)⟩
    simp only [List.length_cons, List.length_append] at hd
    simp only [List.cons_append, List.append_assoc]
    rcases hbody.reads with ⟨rfl, rfl⟩ | hbody
    · exact .emptyFunction (by omega) (hparams.params l₁ _)
    · have hfinish := hbody (d + 1) (⟨.mark .finish, l₃⟩ :: rest) (ends_mark rfl (by decide) _ _)
        (by simp [NotNext]) (by omega)
      exact .function (by omega) (hparams.params l₁ _) hfinish
  | @Printed.call x l l' l₁ arguments w harguments => by
    have h : ReadsAsTerm limit
        (⟨.name x, l⟩ :: ⟨.mark .openParen, l'⟩ :: (w ++ [⟨.mark .closeParen, l₁⟩]))
        (.call x arguments l) := by
      intro d rest _ hd
      simp only [List.length_cons, List.length_append] at hd
      simp only [List.cons_append, List.append_assoc]
      rcases harguments.reads with ⟨rfl, rfl⟩ | harguments
      · exact .emptyCall
      · exact .call (harguments d (⟨.mark .closeParen, l₁⟩ :: rest) (ends_mark rfl (by decide) _ _)
          (by simp [NotNext]) (by omega))
    have h := HasSpine.ofTerm h 4
    exact ⟨h.readsAsValue (by decide), fun _ => h⟩
  | .group l l' he => by
    have hgroup := ReadsAs.group (fun d rest => he.reads.1 d 0 rest (Nat.zero_le _)) l l'
    have h := HasSpine.ofTerm hgroup 4
    exact ⟨h.readsAsValue (by decide), fun _ => h⟩

theorem PrintedAll.reads {es : List (Expr Unit)} {w : List Located} : PrintedAll es w →
    (es = [] ∧ w = []) ∨ ∀ d rest, Ends rest → NotNext .comma rest →
      d + 2 * w.length + 1 ≤ limit → Expressions limit d (w ++ rest) es rest
  | .nil => .inl ⟨rfl, rfl⟩
  | .last he => by
    refine .inr fun d rest hrest hcomma hd => ?_
    exact .last (he.reads.1 d 0 rest (Nat.zero_le _) hrest hd) hcomma
  | @PrintedAll.more l _ _ _ _ _ w he hes => by
    refine .inr fun d rest hrest hcomma hd => ?_
    simp only [List.length_append, List.length_cons] at hd
    have he := he.reads.1 d 0 (⟨.mark .comma, l⟩ :: (w ++ rest)) (Nat.zero_le _)
      (ends_mark rfl (by decide) _ _) (by omega)
    rcases hes.reads with ⟨h, -⟩ | hes
    · cases h
    · rw [List.append_assoc]
      exact .more he (hes d rest hrest hcomma (by omega))

end

end

/-- Every tree can be printed, and from whatever tokens it is printed as, the parser reads exactly
this tree, with its lines, and leaves exactly what follows. -/
theorem expression_printed (e : Expr Unit) :
    (∃ w, Printed false e w) ∧
      ∀ g w, Printed g e w → ∀ (b : Bounds) d rest, Ends rest → d + 2 * w.length + 1 ≤ b.limit →
        Parser.expression b 0 ⟨w ++ rest, d⟩ = .ok e ⟨rest, d⟩ := by
  refine ⟨exists_printed e, fun g w h b d rest hrest hd => ?_⟩
  exact Parser.expression_eq_ok_iff.2 ⟨h.reads.1 d 0 rest (Nat.zero_le _) hrest hd, rfl⟩

/-- In `x + y * (z - x)` the product needs no parentheses, and the difference does. -/
theorem expression_printed_product :
    Parser.expression ⟨19, 3⟩ 0
        ⟨[⟨.name "x", 1⟩, ⟨.mark .plus, 1⟩, ⟨.name "y", 2⟩, ⟨.mark .star, 2⟩, ⟨.mark .openParen, 2⟩,
          ⟨.name "z", 2⟩, ⟨.mark .minus, 3⟩, ⟨.name "x", 3⟩, ⟨.mark .closeParen, 3⟩] ++
          [⟨.mark .dot, 3⟩], 0⟩ =
      .ok (.arithmetic .add (.var "x" 1) (.arithmetic .multiply (.var "y" 2)
          (.arithmetic .subtract (.var "z" 2) (.var "x" 3) 3) 2) 1)
        ⟨[⟨.mark .dot, 3⟩], 0⟩ := by
  have hdifference := Printed.arithmetic .subtract 3 (.var "z" 2) (by decide) (.var "x" 3)
    (by decide)
  have hproduct := Printed.arithmetic .multiply 2 (.var "y" 2) (by decide)
    (.group 2 3 hdifference) (fun _ => rfl)
  have hsum := Printed.arithmetic .add 1 (.var "x" 1) (by decide) hproduct (by decide)
  exact (expression_printed _).2 false _ hsum ⟨19, 3⟩ 0 _ (ends_mark rfl (by decide) 3 [])
    (by decide)

end Reckon
