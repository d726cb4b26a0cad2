import Reckon.Parse.Grammar

/-!
# What the parser reads

`Reading.Expression limit d m ts e rest`: with `d` levels open, an expression above the precedence
`m` is read from `ts` as the tree `e`, and `rest` is left. The relations of this module say what
successful parses do without saying how far the parser's loops may go; that the parser realises
them is in `Reckon.Proofs.Parse.Run`. The number of open levels is an argument only: every reading
closes what it opens.
-/

set_option autoImplicit false

namespace Reckon

namespace Reading

/-- The next token, if there is one, is not the given mark. -/
def NotNext (m : Mark) : List Located → Prop
  | [] => True
  | t :: _ => t.token ≠ .mark m

/-- The next token, if there is one, is no joint with which an operand above `minimum` goes on. -/
def Stops (minimum : Nat) : List Located → Prop
  | [] => True
  | t :: _ => ∀ j, Joint.ofToken? t.token = some j → j.continues minimum = false

/-- Nothing that follows can belong to an expression before: no joint and no parenthesis of a call.
-/
def Ends : List Located → Prop
  | [] => True
  | t :: _ => Joint.ofToken? t.token = none ∧ t.token ≠ .mark .openParen

/-- Names between commas. -/
inductive Names : List Located → List String → List Located → Prop
  | last {x : String} {l : Nat} {rest : List Located} : Names (⟨.name x, l⟩ :: rest) [x] rest
  | more {x : String} {l l' : Nat} {ts rest : List Located} {xs : List String} :
      Names ts xs rest → Names (⟨.name x, l⟩ :: ⟨.mark .comma, l'⟩ :: ts) (x :: xs) rest

/-- Names between commas, possibly none, and a closing parenthesis. -/
inductive Params : List Located → List String → List Located → Prop
  | none {l : Nat} {rest : List Located} : Params (⟨.mark .closeParen, l⟩ :: rest) [] rest
  | some {l : Nat} {ts rest : List Located} {xs : List String} :
      Names ts xs (⟨.mark .closeParen, l⟩ :: rest) → Params ts xs rest

mutual

inductive Expression (limit : Nat) :
    Nat → Nat → List Located → Expr Unit → List Located → Prop
  | emptyFunction {d m l l' l₁ l₂ : Nat} {ts rest : List Located} {params : List String} :
      d < limit → Params ts params (⟨.mark .arrow, l₁⟩ :: ⟨.mark .finish, l₂⟩ :: rest) →
      Expression limit d m (⟨.mark .function, l⟩ :: ⟨.mark .openParen, l'⟩ :: ts)
        (.function () params [] l) rest
  | function {d m l l' l₁ l₂ : Nat} {ts mid rest : List Located} {params : List String}
      {body : List (Expr Unit)} :
      d < limit → Params ts params (⟨.mark .arrow, l₁⟩ :: mid) →
      Expressions limit (d + 1) mid body (⟨.mark .finish, l₂⟩ :: rest) →
      Expression limit d m (⟨.mark .function, l⟩ :: ⟨.mark .openParen, l'⟩ :: ts)
        (.function () params body l) rest
  | operation {d m : Nat} {ts mid rest : List Located} {first e : Expr Unit} :
      d < limit → Term limit (d + 1) ts first mid → Chain limit (d + 1) m mid first e rest →
      Expression limit d m ts e rest

inductive Term (limit : Nat) : Nat → List Located → Expr Unit → List Located → Prop
  | number {d l : Nat} {x : Float} {rest : List Located} :
      Term limit d (⟨.number x, l⟩ :: rest) (.number x l) rest
  | var {d l : Nat} {x : String} {rest : List Located} :
      NotNext .openParen rest → Term limit d (⟨.name x, l⟩ :: rest) (.var x l) rest
  | emptyCall {d l l' l₁ : Nat} {x : String} {rest : List Located} :
      Term limit d (⟨.name x, l⟩ :: ⟨.mark .openParen, l'⟩ :: ⟨.mark .closeParen, l₁⟩ :: rest)
        (.call x [] l) rest
  | call {d l l' l₁ : Nat} {x : String} {ts rest : List Located} {es : List (Expr Unit)} :
      Expressions limit d ts es (⟨.mark .closeParen, l₁⟩ :: rest) →
      Term limit d (⟨.name x, l⟩ :: ⟨.mark .openParen, l'⟩ :: ts) (.call x es l) rest
  | group {d l l' : Nat} {ts rest : List Located} {e : Expr Unit} :
      Expression limit d 0 ts e (⟨.mark .closeParen, l'⟩ :: rest) →
      Term limit d (⟨.mark .openParen, l⟩ :: ts) e rest

/-- Joints and right operands are folded onto the tree before the tokens. -/
inductive Chain (limit : Nat) :
    Nat → Nat → List Located → Expr Unit → Expr Unit → List Located → Prop
  | stop {d m : Nat} {rest : List Located} {left : Expr Unit} :
      Stops m rest → Chain limit d m rest left left rest
  | fold {d m : Nat} {t : Located} {j : Joint} {ts mid rest : List Located}
      {left right joined e : Expr Unit} :
      Joint.ofToken? t.token = some j → j.continues m = true → d < limit →
      Expression limit (d + 1) j.precedence ts right mid →
      j.combine t.line left right = .ok joined → Chain limit (d + 1) m mid joined e rest →
      Chain limit d m (t :: ts) left e rest

/-- Expressions between commas. -/
inductive Expressions (limit : Nat) :
    Nat → List Located → List (Expr Unit) → List Located → Prop
  | last {d : Nat} {ts rest : List Located} {e : Expr Unit} :
      Expression limit d 0 ts e rest → NotNext .comma rest → Expressions limit d ts [e] rest
  | more {d l : Nat} {ts mid rest : List Located} {e : Expr Unit} {es : List (Expr Unit)} :
      Expression limit d 0 ts e (⟨.mark .comma, l⟩ :: mid) → Expressions limit d mid es rest →
      Expressions limit d ts (e :: es) rest

end

/-- A whole program: the tokens are used up. -/
inductive Program (limit d : Nat) : List Located → List (Statement Unit) → Prop
  | last {t : Located} {l : Nat} {ts : List Located} {es : List (Expr Unit)} :
      Expressions limit d (t :: ts) es [⟨.mark .dot, l⟩] → Program limit d (t :: ts) [⟨es, t.line⟩]
  | more {t u : Located} {l : Nat} {ts rest : List Located} {es : List (Expr Unit)}
      {program : List (Statement Unit)} :
      Expressions limit d (t :: ts) es (⟨.mark .dot, l⟩ :: u :: rest) →
      Program limit d (u :: rest) program → Program limit d (t :: ts) (⟨es, t.line⟩ :: program)

theorem Ends.notNext {rest : List Located} (h : Ends rest) : NotNext .openParen rest := by
  cases rest with
  | nil => trivial
  | cons t rest => exact h.2

theorem Ends.stops {rest : List Located} (h : Ends rest) (m : Nat) : Stops m rest := by
  cases rest with
  | nil => trivial
  | cons t rest =>
    intro j hj
    rw [h.1] at hj
    cases hj

theorem Stops.append {m : Nat} {v rest : List Located} (hv : Stops m v) (hrest : Ends rest) :
    Stops m (v ++ rest) := by
  cases v with
  | nil => exact hrest.stops m
  | cons t v => exact hv

theorem ends_mark {m : Mark} (hj : Joint.ofToken? (.mark m) = none) (ho : m ≠ .openParen) (l : Nat)
    (rest : List Located) : Ends (⟨.mark m, l⟩ :: rest) :=
  ⟨hj, by simpa using ho⟩

/-! ## Tokens are used up -/

theorem Names.length_lt {ts rest : List Located} {xs : List String} (h : Names ts xs rest) :
    rest.length < ts.length := by
  induction h with
  | last => simp
  | more _ ih => simp only [List.length_cons]; omega

theorem Params.length_lt {ts rest : List Located} {xs : List String} (h : Params ts xs rest) :
    rest.length < ts.length := by
  cases h with
  | none => simp
  | some h =>
    have := h.length_lt
    simp only [List.length_cons] at this
    omega

section
variable {limit : Nat}

mutual

theorem Expression.length_lt {d m : Nat} {ts rest : List Located} {e : Expr Unit} :
    Expression limit d m ts e rest → rest.length < ts.length
  | .emptyFunction _ hp => by
    have := hp.length_lt
    simp only [List.length_cons] at this ⊢
    omega
  | .function _ hp hb => by
    have := hp.length_lt
    have := hb.length_lt
    simp only [List.length_cons] at *
    omega
  | .operation _ ht hc => by
    have := ht.length_lt
    have := hc.length_le
    omega

theorem Term.length_lt {d : Nat} {ts rest : List Located} {e : Expr Unit} :
    Term limit d ts e rest → rest.length < ts.length
  | .number => by simp
  | .var _ => by simp
  | .emptyCall => by simp only [List.length_cons]; omega
  | .call hs => by
    have := hs.length_lt
    simp only [List.length_cons] at *
    omega
  | .group h => by
    have := h.length_lt
    simp only [List.length_cons] at *
    omega

theorem Chain.length_le {d m : Nat} {ts rest : List Located} {left e : Expr Unit} :
    Chain limit d m ts left e rest → rest.length ≤ ts.length
  | .stop _ => Nat.le_refl _
  | .fold _ _ _ h _ hc => by
    have := h.length_lt
    have := hc.length_le
    simp only [List.length_cons]
    omega

theorem Expressions.length_lt {d : Nat} {ts rest : List Located} {es : List (Expr Unit)} :
    Expressions limit d ts es rest → rest.length < ts.length
  | .last h _ => h.length_lt
  | .more h hs => by
    have := h.length_lt
    have := hs.length_lt
    simp only [List.length_cons] at *
    omega

end

/-! ## First tokens -/

/-- Neither a closing mark nor the end of the tokens starts an expression. -/
def Opens (ts : List Located) : Prop :=
  ∃ t rest, ts = t :: rest ∧ ∀ m, t.token = .mark m → m = .function ∨ m = .openParen

theorem Term.opens {d : Nat} {ts rest : List Located} {e : Expr Unit}
    (h : Term limit d ts e rest) :
    ∃ t mid, ts = t :: mid ∧ ∀ m, t.token = .mark m → m = .openParen := by
  cases h <;> exact ⟨_, _, rfl, by simp⟩

theorem Expression.opens {d m : Nat} {ts rest : List Located} {e : Expr Unit}
    (h : Expression limit d m ts e rest) : Opens ts := by
  cases h with
  | emptyFunction => exact ⟨_, _, rfl, by simp⟩
  | function => exact ⟨_, _, rfl, by simp⟩
  | operation _ ht _ =>
    obtain ⟨t, mid, rfl, hm⟩ := ht.opens
    exact ⟨t, mid, rfl, fun m h => .inr (hm m h)⟩

theorem Expressions.opens {d : Nat} {ts rest : List Located} {es : List (Expr Unit)}
    (h : Expressions limit d ts es rest) : Opens ts := by
  cases h with
  | last h _ => exact h.opens
  | more h _ => exact h.opens

theorem Expressions.ne_nil {d : Nat} {ts rest : List Located} {es : List (Expr Unit)}
    (h : Expressions limit d ts es rest) : es ≠ [] := by
  cases h <;> simp

theorem Opens.notNext {ts : List Located} (h : Opens ts) {m : Mark} (hf : m ≠ .function)
    (ho : m ≠ .openParen) : NotNext m ts := by
  obtain ⟨t, rest, rfl, hm⟩ := h
  intro he
  rcases hm m he with rfl | rfl <;> contradiction

/-! ## Tokens that are read as a whole

The levels that they need are counted by their tokens: a level for the expression and two for each
token. -/

/-- `w` is read as the expression `e` where nothing that follows belongs to it. -/
def ReadsAs (limit : Nat) (w : List Located) (e : Expr Unit) : Prop :=
  ∀ d rest, Ends rest → d + 2 * w.length + 1 ≤ limit → Expression limit d 0 (w ++ rest) e rest

/-- `w` is read as the term `e`, also in front of an operator. -/
def ReadsAsTerm (limit : Nat) (w : List Located) (e : Expr Unit) : Prop :=
  ∀ d rest, NotNext .openParen rest → d + 2 * w.length ≤ limit → Term limit d (w ++ rest) e rest

/-- `w` is read as the function `e`, whatever follows and above whatever precedence. -/
def ReadsAsLiteral (limit : Nat) (w : List Located) (e : Expr Unit) : Prop :=
  ∀ d m rest, d + 2 * w.length + 1 ≤ limit → Expression limit d m (w ++ rest) e rest

theorem ReadsAsTerm.readsAs {w : List Located} {e : Expr Unit} (h : ReadsAsTerm limit w e) :
    ReadsAs limit w e := by
  intro d rest hrest hd
  exact .operation (by omega) (h (d + 1) rest hrest.notNext (by omega)) (.stop (hrest.stops 0))

theorem ReadsAs.group {w : List Located} {e : Expr Unit} (h : ReadsAs limit w e) (l l' : Nat) :
    ReadsAsTerm limit (⟨.mark .openParen, l⟩ :: (w ++ [⟨.mark .closeParen, l'⟩])) e := by
  intro d rest _ hd
  simp only [List.length_cons, List.length_append, List.length_nil] at hd
  rw [List.cons_append, List.append_assoc]
  exact .group (h d (⟨.mark .closeParen, l'⟩ :: rest) (ends_mark rfl (by decide) _ _)
    (by omega))

end

end Reading

end Reckon
