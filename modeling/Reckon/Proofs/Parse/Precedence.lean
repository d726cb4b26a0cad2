import Mathlib.Data.List.Chain
import Reckon.Proofs.Parse.Acceptance
import Reckon.Proofs.Parse.Printing
import Reckon.Proofs.Token.Split

/-!
# Precedence

Where no parenthesis groups, precedence alone decides what the operands of an operator are
(`statements_precedence`). To its right stands no operation that would need parentheses there
(`Operator.groupsRight`). To its left stands nothing that would (`groupedLeft`), with one exception: a
function literal ends the operand that it stands in whatever the precedence, so that an operator
behind its last word takes all that the literal completes. Where no arithmetic operator stands
directly behind a literal, there is no exception.

The proof follows the operator loop. What is on the left of the next operator is `Leads` for it: it
is a term, or its last operand was read up to this operator because the operator binds less tightly,
or it ends in a literal.
-/

set_option autoImplicit false

namespace Reckon

/-! ## Nodes -/

section
variable {τ : Type}

mutual

/-- All trees inside a tree, itself and the bodies of its function literals included. -/
def Expr.nodes : Expr τ → List (Expr τ)
  | .number x line => [.number x line]
  | .var x line => [.var x line]
  | .arithmetic op left right line =>
    .arithmetic op left right line :: (left.nodes ++ right.nodes)
  | .assign x value line => .assign x value line :: value.nodes
  | .function tag params body line => .function tag params body line :: nodesAll body
  | .call x arguments line => .call x arguments line :: nodesAll arguments

def nodesAll : List (Expr τ) → List (Expr τ)
  | [] => []
  | e :: es => e.nodes ++ nodesAll es

end

theorem mem_nodesAll {n : Expr τ} {es : List (Expr τ)} :
    n ∈ nodesAll es ↔ ∃ e ∈ es, n ∈ e.nodes := by
  induction es with
  | nil => simp [nodesAll]
  | cons e es ih => simp [nodesAll, ih]

/-- The operator of an operation. Other trees have none. -/
def Expr.operator? : Expr τ → Option Operator
  | .arithmetic op .. => some op
  | _ => none

/-- Whether the last operand of the tree is a function literal. -/
def Expr.endsInLiteral : Expr τ → Bool
  | .arithmetic _ _ (.function ..) _ | .assign _ (.function ..) _ => true
  | _ => false

end

/-! ## Tokens -/

/-- The tokens behind which a parenthesis opens a list of arguments or parameters. -/
def Token.opensList : Token → Bool
  | .name _ | .mark .function => true
  | _ => false

def Token.isArithmetic (t : Token) : Bool :=
  match Joint.ofToken? t with
  | some (.arithmetic _) => true
  | _ => false

/-- No parenthesis groups: each opening one stands directly behind a name or behind `fun`. -/
def Ungrouped (ts : List Located) : Prop :=
  (∀ t ∈ ts.head?, t.token ≠ .mark .openParen) ∧
    ts.IsChain fun t u => u.token = .mark .openParen → t.token.opensList

/-- No arithmetic operator stands directly behind a function literal. -/
def LiteralsLast (ts : List Located) : Prop :=
  ts.IsChain fun t u => t.token = .mark .finish → u.token.isArithmetic = false

instance (ts : List Located) : Decidable (Ungrouped ts) := inferInstanceAs (Decidable (_ ∧ _))

instance (ts : List Located) : Decidable (LiteralsLast ts) :=
  inferInstanceAs (Decidable (ts.IsChain _))

theorem Joint.not_opensList {t : Token} {j : Joint} (h : Joint.ofToken? t = some j) :
    t.opensList = false := by
  obtain ⟨m, hm, rfl, -⟩ := Joint.mark_of_ofToken? h
  revert hm
  cases m <;> decide

namespace Reading

/-- No parenthesis behind the first token groups and, unless `loose`, no arithmetic operator stands
directly behind a function literal. -/
structure Clear (loose : Prop) (ts : List Located) : Prop where
  parens : ts.IsChain fun t u => u.token = .mark .openParen → t.token.opensList
  literals : loose ∨ LiteralsLast ts

section
variable {loose : Prop} {t : Located} {ts w rest : List Located}

theorem Clear.of_append (h : Clear loose (w ++ rest)) : Clear loose rest :=
  ⟨h.parens.right_of_append, h.literals.imp_right List.IsChain.right_of_append⟩

theorem Clear.tail (h : Clear loose (t :: ts)) : Clear loose ts :=
  Clear.of_append (w := [t]) h

theorem Clear.notNext (h : Clear loose (t :: ts)) (ht : t.token.opensList = false) :
    NotNext .openParen ts := by
  cases ts with
  | nil => trivial
  | cons u ts =>
    intro hu
    have := (List.isChain_cons_cons.1 h.parens).1 hu
    simp [ht] at this

theorem Clear.behind_literal {l : Nat} (h : Clear loose (⟨.mark .finish, l⟩ :: ts)) :
    loose ∨ ∀ t ∈ ts.head?, t.token.isArithmetic = false := by
  refine h.literals.imp_right fun hlast u hu => ?_
  obtain ⟨ts', rfl⟩ := List.head?_eq_some_iff.1 hu
  exact (List.isChain_cons_cons.1 hlast).1 rfl

end

end Reading

/-! ## Operands -/

/-- An operation has operands that its operator allows. Other trees ask nothing of their parts. -/
def Expr.Ordered (loose : Prop) : Expr Unit → Prop
  | .arithmetic op left right _ =>
    (groupedLeft op left → loose ∧ left.endsInLiteral) ∧
      ∀ inner ∈ right.operator?, op.groupsRight inner = false
  | _ => True

/-- All operations of the tree are in order, and the last one binds more tightly than `m`. -/
structure Climbs (loose : Prop) (m : Nat) (e : Expr Unit) : Prop where
  nodes : ∀ n ∈ e.nodes, n.Ordered loose
  above : ∀ op ∈ e.operator?, m < op.precedence

/-- An arithmetic operator above `m` that comes next may have the tree to its left. -/
def Leads (loose : Prop) (m : Nat) (left : Expr Unit) (ts : List Located) : Prop :=
  ∀ t ∈ ts.head?, ∀ op, Joint.ofToken? t.token = some (.arithmetic op) → m < op.precedence →
    groupedLeft op left → loose ∧ left.endsInLiteral

/-- What an operand says about the tokens behind it: it is a function literal, or it has been read up
to an operator that does not bind more tightly than `m`. -/
def Bounded (loose : Prop) (m : Nat) (e : Expr Unit) (rest : List Located) : Prop :=
  (∃ params body line, e = .function () params body line ∧
    (loose ∨ ∀ t ∈ rest.head?, t.token.isArithmetic = false)) ∨ Reading.Stops m rest

section
variable {loose : Prop} {j : Joint} {m line : Nat} {left right joined : Expr Unit}

/-- One round of the operator loop. -/
theorem Climbs.combine (hleft : Climbs loose m left) (hright : Climbs loose j.precedence right)
    (hm : j.continues m = true)
    (hlead : ∀ op, j = .arithmetic op → groupedLeft op left → loose ∧ left.endsInLiteral)
    (h : j.combine line left right = .ok joined) : Climbs loose m joined := by
  cases j with
  | assign =>
    cases left with
    | var x l =>
      cases h
      refine ⟨fun n hn => ?_, by simp [Expr.operator?]⟩
      rw [Expr.nodes, List.mem_cons] at hn
      rcases hn with rfl | hn
      · trivial
      · exact hright.nodes n hn
    | _ => cases h
  | arithmetic op =>
    cases h
    refine ⟨fun n hn => ?_, by simpa [Expr.operator?, Joint.continues] using hm⟩
    rw [Expr.nodes, List.mem_cons, List.mem_append] at hn
    rcases hn with rfl | hn | hn
    · refine ⟨hlead op rfl, fun inner hinner => Bool.eq_false_iff.2 fun hgroups => ?_⟩
      exact Nat.not_lt.2 ((op.groupsRight_iff inner).1 hgroups) (hright.above inner hinner)
    · exact hleft.nodes n hn
    · exact hright.nodes n hn

/-- A literal as the last operand is the exception; any other operand has been read up to the next
operator, which therefore does not bind more tightly than `j`. -/
theorem Bounded.leads {rest : List Located} (hright : Bounded loose j.precedence right rest)
    (h : j.combine line left right = .ok joined) : Leads loose m joined rest := by
  intro t ht op hop _ hgrouped
  obtain ⟨rest', rfl⟩ := List.head?_eq_some_iff.1 ht
  rcases hright with ⟨params, body, l, rfl, hnext⟩ | hstop
  · refine ⟨hnext.resolve_right fun hplain => ?_, ?_⟩
    · have := hplain t ht
      simp [Token.isArithmetic, hop] at this
    · cases j with
      | assign =>
        cases left with
        | var x l => cases h; rfl
        | _ => cases h
      | arithmetic inner => cases h; rfl
  · have hle := hstop _ hop
    simp only [Joint.continues, decide_eq_false_iff_not, Nat.not_lt] at hle
    cases j with
    | assign => cases op <;> simp [Joint.precedence, Operator.precedence] at hle
    | arithmetic inner =>
      cases h
      simp only [groupedLeft, Operator.groupsLeft_iff, Joint.precedence] at hgrouped hle
      omega

end

/-- A number, a variable or a call: it can stand to the left of any operator. -/
structure Simple (loose : Prop) (e : Expr Unit) : Prop where
  nodes : ∀ n ∈ e.nodes, n.Ordered loose
  above : e.operator? = none
  ungrouped : ∀ op, groupedLeft op e = false

theorem Simple.climbs {loose : Prop} {e : Expr Unit} (h : Simple loose e) (m : Nat) :
    Climbs loose m e :=
  ⟨h.nodes, by simp [h.above]⟩

theorem Simple.leads {loose : Prop} {e : Expr Unit} (h : Simple loose e) (m : Nat)
    (ts : List Located) : Leads loose m e ts := by
  intro t _ op _ _ hgrouped
  rw [h.ungrouped op] at hgrouped
  cases hgrouped

theorem simple_call {loose : Prop} {x : String} {line : Nat} {arguments : List (Expr Unit)}
    (h : ∀ n ∈ nodesAll arguments, n.Ordered loose) : Simple loose (.call x arguments line) := by
  refine ⟨fun n hn => ?_, rfl, fun _ => rfl⟩
  rw [Expr.nodes, List.mem_cons] at hn
  rcases hn with rfl | hn
  · trivial
  · exact h n hn

theorem ordered_function {loose : Prop} {params : List String} {line : Nat}
    {body : List (Expr Unit)} (h : ∀ n ∈ nodesAll body, n.Ordered loose) (m : Nat) :
    Climbs loose m (.function () params body line) := by
  refine ⟨fun n hn => ?_, by simp [Expr.operator?]⟩
  rw [Expr.nodes, List.mem_cons] at hn
  rcases hn with rfl | hn
  · trivial
  · exact h n hn

/-! ## Readings -/

namespace Reading

section
variable {limit : Nat} {loose : Prop}

mutual

theorem Expression.climbs {d m : Nat} {ts rest : List Located} {e : Expr Unit} :
    Expression limit d m ts e rest → NotNext .openParen ts → Clear loose ts →
      Climbs loose m e ∧ Bounded loose m e rest
  | .emptyFunction _ hp, _, hclear => by
    obtain ⟨w, hw⟩ := hp.exists_append
    subst hw
    have hend := hclear.tail.tail.of_append.tail.behind_literal
    exact ⟨ordered_function (by simp [nodesAll]) m, .inl ⟨_, _, _, rfl, hend⟩⟩
  | .function _ hp hb, _, hclear => by
    obtain ⟨w, hw⟩ := hp.exists_append
    subst hw
    have hmid := hclear.tail.tail.of_append
    have hbody := hb.ordered (hmid.notNext rfl) hmid.tail
    obtain ⟨v, hv⟩ := hb.exists_append
    subst hv
    have hend := hmid.tail.of_append.behind_literal
    exact ⟨ordered_function hbody m, .inl ⟨_, _, _, rfl, hend⟩⟩
  | .operation _ ht hc, hnot, hclear => by
    have hfirst := ht.simple hnot hclear
    obtain ⟨w, hw⟩ := ht.exists_append
    subst hw
    obtain ⟨he, hstop⟩ := hc.climbs hclear.of_append (hfirst.climbs m) (hfirst.leads m _)
    exact ⟨he, .inr hstop⟩

theorem Term.simple {d : Nat} {ts rest : List Located} {e : Expr Unit} :
    Term limit d ts e rest → NotNext .openParen ts → Clear loose ts → Simple loose e
  | .number, _, _ => ⟨by simp [Expr.nodes, Expr.Ordered], rfl, fun _ => rfl⟩
  | .var _, _, _ => ⟨by simp [Expr.nodes, Expr.Ordered], rfl, fun _ => rfl⟩
  | .emptyCall, _, _ => simple_call (by simp [nodesAll])
  | .call hs, _, hclear => simple_call (hs.ordered (hclear.tail.notNext rfl) hclear.tail.tail)
  | .group _, hnot, _ => absurd rfl hnot

/-- The tree on the left grows by one operator with each round. -/
theorem Chain.climbs {d m : Nat} {ts rest : List Located} {left e : Expr Unit} :
    Chain limit d m ts left e rest → Clear loose ts → Climbs loose m left →
      Leads loose m left ts → Climbs loose m e ∧ Stops m rest
  | .stop hs, _, hleft, _ => ⟨hleft, hs⟩
  | .fold hj hm _ hr hcomb hc, hclear, hleft, hlead => by
    obtain ⟨hright, hbounded⟩ := hr.climbs (hclear.notNext (Joint.not_opensList hj)) hclear.tail
    have hjoined := hleft.combine hright hm (fun op hop => ?_) hcomb
    · obtain ⟨w, hw⟩ := hr.exists_append
      subst hw
      exact hc.climbs hclear.tail.of_append hjoined (hbounded.leads hcomb)
    · subst hop
      exact hlead _ rfl op hj (by simpa [Joint.continues] using hm)

theorem Expressions.ordered {d : Nat} {ts rest : List Located} {es : List (Expr Unit)} :
    Expressions limit d ts es rest → NotNext .openParen ts → Clear loose ts →
      ∀ n ∈ nodesAll es, n.Ordered loose
  | .last he _, hnot, hclear => by
    obtain ⟨hnodes, -⟩ := (he.climbs hnot hclear).1
    simpa [nodesAll] using hnodes
  | .more he hs, hnot, hclear => by
    obtain ⟨hnodes, -⟩ := (he.climbs hnot hclear).1
    obtain ⟨w, hw⟩ := he.exists_append
    subst hw
    have hothers := hs.ordered (hclear.of_append.notNext rfl) hclear.of_append.tail
    intro n hn
    rw [nodesAll, List.mem_append] at hn
    exact hn.elim (hnodes n) (hothers n)

end

/-- The end of a statement groups nothing either. -/
theorem Program.ordered {d : Nat} {ts : List Located} {program : List (Statement Unit)}
    (h : Program limit d ts program) (hnot : NotNext .openParen ts) (hclear : Clear loose ts) :
    ∀ s ∈ program, ∀ n ∈ nodesAll s.expressions, n.Ordered loose := by
  induction h with
  | last hes => simpa using hes.ordered hnot hclear
  | more hes _ ih =>
    have hfirst := hes.ordered hnot hclear
    obtain ⟨w, hw⟩ := hes.exists_append
    rw [hw] at hclear
    have hothers := ih (hclear.of_append.notNext rfl) hclear.of_append.tail
    intro s hs
    rcases List.mem_cons.1 hs with rfl | hs
    · exact hfirst
    · exact hothers s hs

end

end Reading

/-- In tokens without parentheses that group, no operation stands to the right of an operator where it
would need them, at any depth of the trees: no sum or difference behind any sign, and no product or
quotient behind that of a product or quotient. What would need parentheses to the left of an operator
stands there only if it ends in a function literal: an assignment of the literal, or an operation with
the literal as its right operand, and never the literal itself. If no arithmetic operator stands
directly behind a literal, nothing that would need parentheses stands there. -/
theorem statements_precedence {b : Bounds} {c c' : Cursor} {program : List (Statement Unit)}
    (h : Parser.statements b c = .ok program c') (hc : Ungrouped c.rest) :
    ∀ s ∈ program, ∀ e ∈ s.expressions, ∀ op left right line,
      .arithmetic op left right line ∈ e.nodes →
        (∀ inner ∈ right.operator?, op.groupsRight inner = false) ∧
        (groupedLeft op left → left.endsInLiteral) ∧
        (LiteralsLast c.rest → groupedLeft op left = false) := by
  intro s hs e he op left right line hn
  have hnot : Reading.NotNext .openParen c.rest := by
    cases hrest : c.rest with
    | nil => trivial
    | cons t ts => exact hc.1 t (by rw [hrest]; rfl)
  have hmem : .arithmetic op left right line ∈ nodesAll s.expressions := mem_nodesAll.2 ⟨e, he, hn⟩
  obtain ⟨hprogram, -⟩ := Parser.statements_eq_ok_iff.1 h
  -- the exception is allowed for, and then excluded
  have hloose : Reading.Clear True c.rest := ⟨hc.2, .inl trivial⟩
  obtain ⟨hleft, hright⟩ := hprogram.ordered hnot hloose s hs _ hmem
  refine ⟨hright, fun hgrouped => (hleft hgrouped).2, fun hlast => ?_⟩
  have hstrict : Reading.Clear False c.rest := ⟨hc.2, .inr hlast⟩
  obtain ⟨hnever, -⟩ := hprogram.ordered hnot hstrict s hs _ hmem
  exact Bool.eq_false_iff.2 fun hgrouped => (hnever hgrouped).1

/-- In `x=a-b*c+fun()->a end.` the sum has the difference to its left. -/
theorem statements_precedence_sum :
    Parser.statements ⟨9, 1⟩ { rest := tokensOf "x=a-b*c+fun()->a end." } =
      .ok [⟨[.assign "x" (.arithmetic .add
        (.arithmetic .subtract (.var "a" 1) (.arithmetic .multiply (.var "b" 1) (.var "c" 1) 1) 1)
        (.function () [] [.var "a" 1] 1) 1) 1], 1⟩] ⟨[], 0⟩ ∧
    groupedLeft .add (.arithmetic .subtract (.var "a" 1)
      (.arithmetic .multiply (.var "b" 1) (.var "c" 1) 1) 1) = false := by
  have h : Parser.statements ⟨9, 1⟩ { rest := tokensOf "x=a-b*c+fun()->a end." } =
      .ok [⟨[.assign "x" (.arithmetic .add
        (.arithmetic .subtract (.var "a" 1) (.arithmetic .multiply (.var "b" 1) (.var "c" 1) 1) 1)
        (.function () [] [.var "a" 1] 1) 1) 1], 1⟩] ⟨[], 0⟩ := by decide +kernel
  refine ⟨h, ?_⟩
  have hlaw := statements_precedence h (by decide) _ (List.mem_singleton_self _) _
    (List.mem_singleton_self _) .add _ _ 1 (.tail _ (.head _))
  exact hlaw.2.2 (by decide)

/-- Behind a literal, a product has a sum as its left operand, and a sum an assignment. -/
theorem precedence_behind_literal :
    (Ungrouped (tokensOf "x+fun()->y end*z.") ∧
      Parser.statements ⟨9, 1⟩ { rest := tokensOf "x+fun()->y end*z." } =
        .ok [⟨[.arithmetic .multiply
          (.arithmetic .add (.var "x" 1) (.function () [] [.var "y" 1] 1) 1) (.var "z" 1) 1], 1⟩]
          ⟨[], 0⟩) ∧
    (Ungrouped (tokensOf "x=fun()->y end+z.") ∧
      Parser.statements ⟨9, 1⟩ { rest := tokensOf "x=fun()->y end+z." } =
        .ok [⟨[.arithmetic .add
          (.assign "x" (.function () [] [.var "y" 1] 1) 1) (.var "z" 1) 1], 1⟩] ⟨[], 0⟩) :=
  ⟨⟨by decide, by decide +kernel⟩, ⟨by decide, by decide +kernel⟩⟩

end Reckon
