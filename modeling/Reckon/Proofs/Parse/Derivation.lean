import Reckon.Token.Basic

/-!
# Derivations

The grammar as such, without precedence, trees and limits:

    document   := statement+
    statement  := list "."
    list       := expression ("," expression)*
    expression := literal | term (op operand)*
    operand    := term | literal
    op         := "=" | "+" | "-" | "*" | "/"
    term       := number | name | name "(" list? ")" | "(" expression ")"
    literal    := "fun" "(" (name ("," name)*)? ")" "->" list? "end"

with the condition that an `=` stands directly after a target: an operand that is a name in any
number of parentheses. Lists and documents keep the cuts between their parts as an index.
-/

set_option autoImplicit false

namespace Reckon

namespace Grammar

/-- A name in any number of parentheses. -/
inductive Target : List Located → Prop
  | name (x : String) (l : Nat) : Target [⟨.name x, l⟩]
  | group (l l' : Nat) {w : List Located} :
      Target w → Target (⟨.mark .openParen, l⟩ :: (w ++ [⟨.mark .closeParen, l'⟩]))

inductive Names : List Located → Prop
  | last (x : String) (l : Nat) : Names [⟨.name x, l⟩]
  | more (x : String) (l l' : Nat) {w : List Located} :
      Names w → Names (⟨.name x, l⟩ :: ⟨.mark .comma, l'⟩ :: w)

inductive Params : List Located → Prop
  | none : Params []
  | some {w : List Located} : Names w → Params w

/-- The marks that may stand between operands. -/
def ops : List Mark := [.equals, .plus, .minus, .star, .slash]

mutual

inductive Term : List Located → Prop
  | number (x : Float) (l : Nat) : Term [⟨.number x, l⟩]
  | name (x : String) (l : Nat) : Term [⟨.name x, l⟩]
  | call (x : String) (l l' l₁ : Nat) {w : List Located} : Optional w →
      Term (⟨.name x, l⟩ :: ⟨.mark .openParen, l'⟩ :: (w ++ [⟨.mark .closeParen, l₁⟩]))
  | group (l l' : Nat) {w : List Located} : Expression w →
      Term (⟨.mark .openParen, l⟩ :: (w ++ [⟨.mark .closeParen, l'⟩]))

inductive Literal : List Located → Prop
  | mk (l l' l₁ l₂ l₃ : Nat) {v w : List Located} : Params v → Optional w →
      Literal (⟨.mark .function, l⟩ :: ⟨.mark .openParen, l'⟩ ::
        (v ++ ⟨.mark .closeParen, l₁⟩ :: ⟨.mark .arrow, l₂⟩ :: (w ++ [⟨.mark .finish, l₃⟩])))

inductive Operand : List Located → Prop
  | term {w : List Located} : Term w → Operand w
  | literal {w : List Located} : Literal w → Operand w

/-- `Tail x z w`: the operators and operands `w` may stand after the operand `x`, and `z` is the
last operand then. -/
inductive Tail : List Located → List Located → List Located → Prop
  | nil (x : List Located) : Tail x x []
  | cons {m : Mark} (l : Nat) {x y z w : List Located} :
      m ∈ ops → (m = .equals → Target x) → Operand y → Tail y z w →
      Tail x z (⟨.mark m, l⟩ :: (y ++ w))

inductive Expression : List Located → Prop
  | literal {w : List Located} : Literal w → Expression w
  | chain {x z w : List Located} : Term x → Tail x z w → Expression (x ++ w)

/-- `Items parts w`: the expressions `parts` with a comma between each two of them are `w`. -/
inductive Items : List (List Located) → List Located → Prop
  | last {w : List Located} : Expression w → Items [w] w
  | more (l : Nat) {v w : List Located} {parts : List (List Located)} :
      Expression v → Items parts w → Items (v :: parts) (v ++ ⟨.mark .comma, l⟩ :: w)

inductive Optional : List Located → Prop
  | none : Optional []
  | some {parts : List (List Located)} {w : List Located} : Items parts w → Optional w

end

/-- `Document parts w`: the statements `parts`, each a list of expressions, make up `w`. -/
inductive Document : List (List (List Located)) → List Located → Prop
  | last (l : Nat) {items : List (List Located)} {v : List Located} :
      Items items v → Document [items] (v ++ [⟨.mark .dot, l⟩])
  | more (l : Nat) {items : List (List Located)} {parts : List (List (List Located))}
      {v w : List Located} : Items items v → Document parts w →
      Document (items :: parts) (v ++ ⟨.mark .dot, l⟩ :: w)

theorem Tail.append {x y z v w : List Located} : Tail x y v → Tail y z w → Tail x z (v ++ w)
  | .nil _, k => k
  | .cons l hm ht ho h, k => by
    rw [List.cons_append, List.append_assoc]
    exact .cons l hm ht ho (h.append k)

end Grammar

end Reckon
