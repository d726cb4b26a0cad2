/-!
# Expressions

The trees that source texts stand for. Every function literal carries a tag of a type `τ`: trees
fresh from the parser carry none (`τ = Unit`), trees that are evaluated in a session carry the
serial number by which a function is told from all others.
-/

set_option autoImplicit false

namespace Reckon

/-- The arithmetic operators. -/
inductive Operator where
  | add
  | subtract
  | multiply
  | divide
deriving DecidableEq, Repr

namespace Operator

/-- How tightly an operator binds. -/
def precedence : Operator → Nat
  | add | subtract => 2
  | multiply | divide => 3

def symbol : Operator → String
  | add => "+"
  | subtract => "-"
  | multiply => "*"
  | divide => "/"

end Operator

/-- The line of an operation is that of its operator, the line of a function literal that of its
first word, and the line of a call that of the name. -/
inductive Expr (τ : Type) where
  | number (value : Float) (line : Nat)
  | var (name : String) (line : Nat)
  | arithmetic (op : Operator) (left right : Expr τ) (line : Nat)
  | assign (name : String) (value : Expr τ) (line : Nat)
  | function (tag : τ) (params : List String) (body : List (Expr τ)) (line : Nat)
  | call (name : String) (arguments : List (Expr τ)) (line : Nat)
deriving Repr

section
variable {τ : Type} [DecidableEq τ]

mutual

def Expr.beq : Expr τ → Expr τ → Bool
  | .number x l, .number x' l' => x = x' ∧ l = l'
  | .var n l, .var n' l' => n = n' ∧ l = l'
  | .arithmetic op e f l, .arithmetic op' e' f' l' => op = op' ∧ e.beq e' ∧ f.beq f' ∧ l = l'
  | .assign n e l, .assign n' e' l' => n = n' ∧ e.beq e' ∧ l = l'
  | .function t ps es l, .function t' ps' es' l' => t = t' ∧ ps = ps' ∧ beqAll es es' ∧ l = l'
  | .call n es l, .call n' es' l' => n = n' ∧ beqAll es es' ∧ l = l'
  | _, _ => false

def beqAll : List (Expr τ) → List (Expr τ) → Bool
  | [], [] => true
  | e :: es, e' :: es' => e.beq e' && beqAll es es'
  | _, _ => false

end

mutual

theorem Expr.beq_iff : ∀ e e' : Expr τ, e.beq e' = true ↔ e = e'
  | .number _ _, e' => by cases e' <;> simp [Expr.beq]
  | .var _ _, e' => by cases e' <;> simp [Expr.beq]
  | .arithmetic _ e f _, e' => by cases e' <;> simp [Expr.beq, e.beq_iff, f.beq_iff]
  | .assign _ e _, e' => by cases e' <;> simp [Expr.beq, e.beq_iff]
  | .function _ _ es _, e' => by cases e' <;> simp [Expr.beq, beqAll_iff es]
  | .call _ es _, e' => by cases e' <;> simp [Expr.beq, beqAll_iff es]

theorem beqAll_iff : ∀ es es' : List (Expr τ), beqAll es es' = true ↔ es = es'
  | [], es' => by cases es' <;> simp [beqAll]
  | e :: es, es' => by cases es' <;> simp [beqAll, e.beq_iff, beqAll_iff es]

end

/-- Equality of trees is decided by `Expr.beq`: it cannot be derived for trees with lists of
trees in them. -/
instance : DecidableEq (Expr τ) := fun e e' => decidable_of_iff _ (e.beq_iff e')

end

/-- What a function literal denotes. -/
structure Function (τ : Type) where
  tag : τ
  params : List String
  body : List (Expr τ)
  line : Nat
deriving DecidableEq, Repr

/-- A list of expressions, and the line of its first token. -/
structure Statement (τ : Type) where
  expressions : List (Expr τ)
  line : Nat
deriving DecidableEq, Repr

/-- How a function is shown: its parameters without its body. -/
def Function.text {τ : Type} (f : Function τ) : String :=
  "fun(" ++ ", ".intercalate f.params ++ ")"

end Reckon
