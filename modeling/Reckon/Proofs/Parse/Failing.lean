import Reckon.Proofs.Parse.Acceptance

/-!
# What the parser fails at

`Failing.Expression b d m ts e pending rest`: with `d` levels open, an expression above the precedence
`m` cannot be read from `ts`. The error is `e`, the parser stops in front of `rest`, and `pending` are
the operators whose levels are open at that point: those of the chains that have begun and not ended,
from the outermost chain inwards. The operators of a chain that has ended are not among them, nor is
an operator for which there is no level left.

The relations of this module complement those of `Reckon.Proofs.Parse.Reading`: tokens are read or
they fail (`decides_expression`), and where they fail, the parser reports the error, stops there, and
leaves exactly the levels of the pending operators open (`expression_eq_error_iff` in
`Reckon.Proofs.Parse.FailingRun`).
-/

set_option autoImplicit false

namespace Reckon

namespace Failing

open Reading (NotNext Stops Params)

/-! ## Single tokens -/

/-- Where a token is needed that `fits`, another one is taken, or there is none left. -/
inductive Refuses (fits : Token → Prop) (misfit : Located → SyntaxError) (atEnd : SyntaxError) :
    List Located → SyntaxError → List Located → Prop
  | token {t : Located} {rest : List Located} :
      ¬ fits t.token → Refuses fits misfit atEnd (t :: rest) (misfit t) rest
  | finish : Refuses fits misfit atEnd [] atEnd []

/-- The error for a token in place of what is wanted. -/
def unexpected (wanted : String) (t : Located) : SyntaxError :=
  .expected wanted t.token.description t.line

/-- The mark is missing. -/
def Misses (b : Bounds) (m : Mark) : List Located → SyntaxError → List Located → Prop :=
  Refuses (· = .mark m) (unexpected m.description)
    (.expected m.description "end of input" b.endLine)

theorem Misses.notNext {b : Bounds} {m : Mark} {ts rest : List Located} {e : SyntaxError}
    (h : Misses b m ts e rest) : NotNext m ts := by
  cases h with
  | token ht => exact ht
  | finish => trivial

/-- A name is missing. -/
def Nameless (b : Bounds) : List Located → SyntaxError → List Located → Prop :=
  Refuses (fun t => ∃ x, t = .name x) (unexpected "an identifier") (.unexpectedEnd b.endLine)

/-- Behind an item, there is neither a comma nor the closing parenthesis. -/
def Unclosed (b : Bounds) : List Located → SyntaxError → List Located → Prop :=
  Refuses (fun t => t = .mark .comma ∨ t = .mark .closeParen)
    (unexpected s!"{Mark.comma.description} or {Mark.closeParen.description}")
    (.expected Mark.closeParen.description "end of input" b.endLine)

/-- No term starts here. -/
def Termless (b : Bounds) : List Located → SyntaxError → List Located → Prop :=
  Refuses (fun t => (∃ x, t = .number x) ∨ (∃ x, t = .name x) ∨ t = .mark .openParen)
    (fun t => .unexpectedToken t.token.description t.line) (.unexpectedEnd b.endLine)

/-! ## The grammar -/

/-- Names between commas, up to a closing parenthesis. -/
inductive Names (b : Bounds) : List Located → SyntaxError → List Located → Prop
  | name {ts rest : List Located} {e : SyntaxError} : Nameless b ts e rest → Names b ts e rest
  | separator {x : String} {l : Nat} {ts rest : List Located} {e : SyntaxError} :
      Unclosed b ts e rest → Names b (⟨.name x, l⟩ :: ts) e rest
  | more {x : String} {l l' : Nat} {ts rest : List Located} {e : SyntaxError} :
      Names b ts e rest → Names b (⟨.name x, l⟩ :: ⟨.mark .comma, l'⟩ :: ts) e rest

mutual

inductive Expression (b : Bounds) :
    Nat → Nat → List Located → SyntaxError → List Located → List Located → Prop
  | tooDeep {d m : Nat} {ts : List Located} : b.limit ≤ d →
      Expression b d m ts
        (.nestingTooDeep b.limit ((ts.head?.map Located.line).getD b.endLine)) [] ts
  | literal {d m l : Nat} {ts pending rest : List Located} {e : SyntaxError} :
      d < b.limit → Literal b (d + 1) ts e pending rest →
      Expression b d m (⟨.mark .function, l⟩ :: ts) e pending rest
  | term {d m : Nat} {ts pending rest : List Located} {e : SyntaxError} :
      d < b.limit → NotNext .function ts → Term b (d + 1) ts e pending rest →
      Expression b d m ts e pending rest
  | chain {d m : Nat} {ts mid pending rest : List Located} {first : Expr Unit} {e : SyntaxError} :
      d < b.limit → Reading.Term b.limit (d + 1) ts first mid →
      Chain b (d + 1) m mid first e pending rest → Expression b d m ts e pending rest

/-- The part of a function literal behind its first token. -/
inductive Literal (b : Bounds) :
    Nat → List Located → SyntaxError → List Located → List Located → Prop
  | parenthesis {d : Nat} {ts rest : List Located} {e : SyntaxError} :
      Misses b .openParen ts e rest → Literal b d ts e [] rest
  | params {d l : Nat} {ts rest : List Located} {e : SyntaxError} :
      NotNext .closeParen ts → Names b ts e rest →
      Literal b d (⟨.mark .openParen, l⟩ :: ts) e [] rest
  | arrow {d l : Nat} {ts mid rest : List Located} {params : List String} {e : SyntaxError} :
      Params ts params mid → Misses b .arrow mid e rest →
      Literal b d (⟨.mark .openParen, l⟩ :: ts) e [] rest
  | body {d l l' : Nat} {ts mid pending rest : List Located} {params : List String}
      {e : SyntaxError} :
      Params ts params (⟨.mark .arrow, l'⟩ :: mid) → NotNext .finish mid →
      Expressions b d mid e pending rest →
      Literal b d (⟨.mark .openParen, l⟩ :: ts) e pending rest
  | finish {d l l' : Nat} {ts mid after rest : List Located} {params : List String}
      {body : List (Expr Unit)} {e : SyntaxError} :
      Params ts params (⟨.mark .arrow, l'⟩ :: mid) →
      Reading.Expressions b.limit d mid body after → Misses b .finish after e rest →
      Literal b d (⟨.mark .openParen, l⟩ :: ts) e [] rest

inductive Term (b : Bounds) :
    Nat → List Located → SyntaxError → List Located → List Located → Prop
  | start {d : Nat} {ts rest : List Located} {e : SyntaxError} :
      Termless b ts e rest → Term b d ts e [] rest
  | arguments {d l l' : Nat} {x : String} {ts pending rest : List Located} {e : SyntaxError} :
      NotNext .closeParen ts → Arguments b d ts e pending rest →
      Term b d (⟨.name x, l⟩ :: ⟨.mark .openParen, l'⟩ :: ts) e pending rest
  | group {d l : Nat} {ts pending rest : List Located} {e : SyntaxError} :
      Expression b d 0 ts e pending rest → Term b d (⟨.mark .openParen, l⟩ :: ts) e pending rest
  | close {d l : Nat} {ts mid rest : List Located} {inner : Expr Unit} {e : SyntaxError} :
      Reading.Expression b.limit d 0 ts inner mid → Misses b .closeParen mid e rest →
      Term b d (⟨.mark .openParen, l⟩ :: ts) e [] rest

/-- Each operator that has got its level is pending until the chain ends. -/
inductive Chain (b : Bounds) :
    Nat → Nat → List Located → Expr Unit → SyntaxError → List Located → List Located → Prop
  | tooDeep {d m : Nat} {t : Located} {j : Joint} {ts : List Located} {left : Expr Unit} :
      Joint.ofToken? t.token = some j → j.continues m = true → b.limit ≤ d →
      Chain b d m (t :: ts) left (.nestingTooDeep b.limit t.line) [] ts
  | operand {d m : Nat} {t : Located} {j : Joint} {ts pending rest : List Located}
      {left : Expr Unit} {e : SyntaxError} :
      Joint.ofToken? t.token = some j → j.continues m = true → d < b.limit →
      Expression b (d + 1) j.precedence ts e pending rest →
      Chain b d m (t :: ts) left e (t :: pending) rest
  | target {d m : Nat} {t : Located} {j : Joint} {ts rest : List Located} {left right : Expr Unit}
      {e : SyntaxError} :
      Joint.ofToken? t.token = some j → j.continues m = true → d < b.limit →
      Reading.Expression b.limit (d + 1) j.precedence ts right rest →
      j.combine t.line left right = .error e → Chain b d m (t :: ts) left e [t] rest
  | fold {d m : Nat} {t : Located} {j : Joint} {ts mid pending rest : List Located}
      {left right joined : Expr Unit} {e : SyntaxError} :
      Joint.ofToken? t.token = some j → j.continues m = true → d < b.limit →
      Reading.Expression b.limit (d + 1) j.precedence ts right mid →
      j.combine t.line left right = .ok joined → Chain b (d + 1) m mid joined e pending rest →
      Chain b d m (t :: ts) left e (t :: pending) rest

/-- Expressions between commas. -/
inductive Expressions (b : Bounds) :
    Nat → List Located → SyntaxError → List Located → List Located → Prop
  | here {d : Nat} {ts pending rest : List Located} {e : SyntaxError} :
      Expression b d 0 ts e pending rest → Expressions b d ts e pending rest
  | more {d l : Nat} {ts mid pending rest : List Located} {first : Expr Unit} {e : SyntaxError} :
      Reading.Expression b.limit d 0 ts first (⟨.mark .comma, l⟩ :: mid) →
      Expressions b d mid e pending rest → Expressions b d ts e pending rest

/-- Expressions between commas, up to a closing parenthesis. -/
inductive Arguments (b : Bounds) :
    Nat → List Located → SyntaxError → List Located → List Located → Prop
  | here {d : Nat} {ts pending rest : List Located} {e : SyntaxError} :
      Expression b d 0 ts e pending rest → Arguments b d ts e pending rest
  | separator {d : Nat} {ts mid rest : List Located} {first : Expr Unit} {e : SyntaxError} :
      Reading.Expression b.limit d 0 ts first mid → Unclosed b mid e rest →
      Arguments b d ts e [] rest
  | more {d l : Nat} {ts mid pending rest : List Located} {first : Expr Unit} {e : SyntaxError} :
      Reading.Expression b.limit d 0 ts first (⟨.mark .comma, l⟩ :: mid) →
      Arguments b d mid e pending rest → Arguments b d ts e pending rest

end

inductive Statement (b : Bounds) (d : Nat) :
    List Located → SyntaxError → List Located → List Located → Prop
  | expressions {ts pending rest : List Located} {e : SyntaxError} :
      Expressions b d ts e pending rest → Statement b d ts e pending rest
  | dot {ts mid rest : List Located} {es : List (Expr Unit)} {e : SyntaxError} :
      Reading.Expressions b.limit d ts es mid → Misses b .dot mid e rest →
      Statement b d ts e [] rest

inductive Program (b : Bounds) (d : Nat) :
    List Located → SyntaxError → List Located → List Located → Prop
  | here {ts pending rest : List Located} {e : SyntaxError} :
      Statement b d ts e pending rest → Program b d ts e pending rest
  | more {u : Located} {l : Nat} {ts mid pending rest : List Located} {es : List (Expr Unit)}
      {e : SyntaxError} :
      Reading.Expressions b.limit d ts es (⟨.mark .dot, l⟩ :: u :: mid) →
      Program b d (u :: mid) e pending rest → Program b d ts e pending rest

/-! ## Pending operators -/

/-- The pending operators are among the tokens that have been taken, and there are levels for them
below the limit. -/
structure Pends (b : Bounds) (d : Nat) (ts pending rest : List Located) : Prop where
  taken : ∃ w, ts = w ++ rest ∧ pending.Sublist w
  isJoint : ∀ t ∈ pending, (Joint.ofToken? t.token).isSome
  le_limit : d + pending.length ≤ max d b.limit

namespace Pends

variable {b : Bounds} {d : Nat} {ts pending rest : List Located}

theorem none (d : Nat) (ts : List Located) : Pends b d ts [] ts :=
  ⟨⟨[], rfl, List.Sublist.refl []⟩, nofun, Nat.le_max_left _ _⟩

theorem behind (h : Pends b d ts pending rest) (w : List Located) :
    Pends b d (w ++ ts) pending rest := by
  obtain ⟨v, rfl, hsub⟩ := h.taken
  refine ⟨⟨w ++ v, by rw [List.append_assoc], ?_⟩, h.isJoint, h.le_limit⟩
  exact hsub.trans (List.sublist_append_right w v)

/-- The level of an expression is open while its parts are read. -/
theorem inside (h : Pends b (d + 1) ts pending rest) (hd : d < b.limit) :
    Pends b d ts pending rest := by
  refine ⟨h.taken, h.isJoint, ?_⟩
  have := h.le_limit
  omega

theorem joint {t : Located} {j : Joint} (h : Pends b (d + 1) ts pending rest) (hd : d < b.limit)
    (hj : Joint.ofToken? t.token = some j) : Pends b d (t :: ts) (t :: pending) rest := by
  obtain ⟨v, rfl, hsub⟩ := h.taken
  refine ⟨⟨t :: v, rfl, hsub.cons_cons t⟩, ?_, ?_⟩
  · exact List.forall_mem_cons.2 ⟨by rw [hj]; rfl, h.isJoint⟩
  · have := h.le_limit
    rw [List.length_cons]
    omega

end Pends

section
variable {b : Bounds}

theorem Refuses.pends {fits : Token → Prop} {misfit : Located → SyntaxError} {atEnd e : SyntaxError}
    {d : Nat} {ts rest : List Located} (h : Refuses fits misfit atEnd ts e rest) :
    Pends b d ts [] rest := by
  cases h with
  | token _ => exact (Pends.none d rest).behind [_]
  | finish => exact .none d []

theorem Names.pends {d : Nat} {ts rest : List Located} {e : SyntaxError} (h : Names b ts e rest) :
    Pends b d ts [] rest := by
  induction h with
  | name h => exact h.pends
  | separator h => exact h.pends.behind [_]
  | more _ ih => exact ih.behind [_, _]

mutual

theorem Expression.pends {d m : Nat} {ts pending rest : List Located} {e : SyntaxError} :
    Expression b d m ts e pending rest → Pends b d ts pending rest
  | .tooDeep _ => .none d ts
  | .literal hd h => (h.pends.inside hd).behind [_]
  | .term hd _ h => h.pends.inside hd
  | .chain hd ht h => by
    obtain ⟨w, rfl⟩ := ht.exists_append
    exact (h.pends.inside hd).behind w

theorem Literal.pends {d : Nat} {ts pending rest : List Located} {e : SyntaxError} :
    Literal b d ts e pending rest → Pends b d ts pending rest
  | .parenthesis h => h.pends
  | .params _ h => h.pends.behind [_]
  | .arrow hp h => by
    obtain ⟨v, rfl⟩ := hp.exists_append
    exact (h.pends.behind v).behind [_]
  | .body hp _ h => by
    obtain ⟨v, rfl⟩ := hp.exists_append
    exact ((h.pends.behind [_]).behind v).behind [_]
  | .finish hp hb h => by
    obtain ⟨u, rfl⟩ := hb.exists_append
    obtain ⟨v, rfl⟩ := hp.exists_append
    exact (((h.pends.behind u).behind [_]).behind v).behind [_]

theorem Term.pends {d : Nat} {ts pending rest : List Located} {e : SyntaxError} :
    Term b d ts e pending rest → Pends b d ts pending rest
  | .start h => h.pends
  | .arguments _ h => h.pends.behind [_, _]
  | .group h => h.pends.behind [_]
  | .close hr h => by
    obtain ⟨v, rfl⟩ := hr.exists_append
    exact (h.pends.behind v).behind [_]

theorem Chain.pends {d m : Nat} {ts pending rest : List Located} {left : Expr Unit}
    {e : SyntaxError} : Chain b d m ts left e pending rest → Pends b d ts pending rest
  | .tooDeep _ _ _ => (Pends.none d rest).behind [_]
  | .operand hj _ hd h => h.pends.joint hd hj
  | .target hj _ hd hr _ => by
    obtain ⟨w, rfl⟩ := hr.exists_append
    exact ((Pends.none _ rest).behind w).joint hd hj
  | .fold hj _ hd hr _ h => by
    obtain ⟨w, rfl⟩ := hr.exists_append
    exact (h.pends.behind w).joint hd hj

theorem Expressions.pends {d : Nat} {ts pending rest : List Located} {e : SyntaxError} :
    Expressions b d ts e pending rest → Pends b d ts pending rest
  | .here h => h.pends
  | .more hr h => by
    obtain ⟨w, rfl⟩ := hr.exists_append
    exact (h.pends.behind [_]).behind w

theorem Arguments.pends {d : Nat} {ts pending rest : List Located} {e : SyntaxError} :
    Arguments b d ts e pending rest → Pends b d ts pending rest
  | .here h => h.pends
  | .separator hr h => by
    obtain ⟨v, rfl⟩ := hr.exists_append
    exact h.pends.behind v
  | .more hr h => by
    obtain ⟨w, rfl⟩ := hr.exists_append
    exact (h.pends.behind [_]).behind w

end

theorem Statement.pends {d : Nat} {ts pending rest : List Located} {e : SyntaxError}
    (h : Statement b d ts e pending rest) : Pends b d ts pending rest := by
  cases h with
  | expressions h => exact h.pends
  | dot hr h =>
    obtain ⟨v, rfl⟩ := hr.exists_append
    exact h.pends.behind v

theorem Program.pends {d : Nat} {ts pending rest : List Located} {e : SyntaxError}
    (h : Program b d ts e pending rest) : Pends b d ts pending rest := by
  induction h with
  | here h => exact h.pends
  | more hr _ ih =>
    obtain ⟨w, rfl⟩ := hr.exists_append
    exact (ih.behind [_]).behind w

end

/-! ## Tokens are read or they fail -/

section
variable (b : Bounds)

theorem decides_mark (m : Mark) (ts : List Located) :
    (∃ l rest, ts = ⟨.mark m, l⟩ :: rest) ∨ ∃ e rest, Misses b m ts e rest := by
  rcases ts with _ | ⟨⟨t, l⟩, rest⟩
  · exact .inr ⟨_, _, .finish⟩
  · by_cases ht : t = .mark m
    · subst ht
      exact .inl ⟨l, rest, rfl⟩
    · exact .inr ⟨_, _, .token ht⟩

/-- What stands behind an item of a list. -/
theorem decides_separator (ts : List Located) :
    (∃ l rest, ts = ⟨.mark .comma, l⟩ :: rest) ∨
      (∃ l rest, ts = ⟨.mark .closeParen, l⟩ :: rest) ∨ ∃ e rest, Unclosed b ts e rest := by
  rcases ts with _ | ⟨⟨t, l⟩, rest⟩
  · exact .inr (.inr ⟨_, _, .finish⟩)
  · by_cases ht : t = .mark .comma ∨ t = .mark .closeParen
    · rcases ht with rfl | rfl
      · exact .inl ⟨l, rest, rfl⟩
      · exact .inr (.inl ⟨l, rest, rfl⟩)
    · exact .inr (.inr ⟨_, _, .token ht⟩)

theorem decides_names : ∀ ts : List Located,
    (∃ xs l rest, Reading.Names ts xs (⟨.mark .closeParen, l⟩ :: rest)) ∨
      ∃ e rest, Names b ts e rest
  | [] => .inr ⟨_, _, .name .finish⟩
  | ⟨.number _, _⟩ :: _ => .inr ⟨_, _, .name (.token (by simp))⟩
  | ⟨.mark _, _⟩ :: _ => .inr ⟨_, _, .name (.token (by simp))⟩
  | ⟨.name x, l⟩ :: ts => by
    rcases decides_separator b ts with ⟨l', mid, rfl⟩ | ⟨l', rest, rfl⟩ | ⟨e, rest, h⟩
    · rcases decides_names mid with ⟨xs, l₁, rest, h⟩ | ⟨e, rest, h⟩
      · exact .inl ⟨_, _, _, .more h⟩
      · exact .inr ⟨_, _, .more h⟩
    · exact .inl ⟨_, _, _, .last⟩
    · exact .inr ⟨_, _, .separator h⟩

theorem decides_params (ts : List Located) :
    (∃ xs rest, Params ts xs rest) ∨ NotNext .closeParen ts ∧ ∃ e rest, Names b ts e rest := by
  rcases decides_names b ts with ⟨xs, l, rest, h⟩ | ⟨e, rest, h⟩
  · exact .inl ⟨xs, rest, .some h⟩
  · rcases decides_mark b .closeParen ts with ⟨l, rest, rfl⟩ | ⟨_, _, hmiss⟩
    · exact .inl ⟨[], rest, .none⟩
    · exact .inr ⟨hmiss.notNext, e, rest, h⟩

/-- Up to `n` tokens, an expression is read or fails. -/
def Decides (n : Nat) : Prop :=
  ∀ d m ts, ts.length ≤ n →
    (∃ e rest, Reading.Expression b.limit d m ts e rest) ∨
      ∃ e pending rest, Expression b d m ts e pending rest

end

section
variable {b : Bounds} {n : Nat} (hex : Decides b n)
include hex

theorem Decides.expressions (d : Nat) (ts : List Located) (hn : ts.length ≤ n) :
    (∃ es rest, Reading.Expressions b.limit d ts es rest) ∨
      ∃ e pending rest, Expressions b d ts e pending rest := by
  induction hlen : ts.length using Nat.strongRecOn generalizing ts with
  | ind k ih =>
    rcases hex d 0 ts hn with ⟨first, mid, hfirst⟩ | ⟨e, pending, rest, h⟩
    · have hlt := hfirst.length_lt
      rcases decides_mark b .comma mid with ⟨l, mid, rfl⟩ | ⟨_, _, hmiss⟩
      · rw [List.length_cons] at hlt
        rcases ih mid.length (by omega) mid (by omega) rfl with
          ⟨es, rest, h⟩ | ⟨e, pending, rest, h⟩
        · exact .inl ⟨_, _, .more hfirst h⟩
        · exact .inr ⟨_, _, _, .more hfirst h⟩
      · exact .inl ⟨_, _, .last hfirst hmiss.notNext⟩
    · exact .inr ⟨_, _, _, .here h⟩

theorem Decides.arguments (d : Nat) (ts : List Located) (hn : ts.length ≤ n) :
    (∃ es l rest, Reading.Expressions b.limit d ts es (⟨.mark .closeParen, l⟩ :: rest)) ∨
      ∃ e pending rest, Arguments b d ts e pending rest := by
  induction hlen : ts.length using Nat.strongRecOn generalizing ts with
  | ind k ih =>
    rcases hex d 0 ts hn with ⟨first, mid, hfirst⟩ | ⟨e, pending, rest, h⟩
    · have hlt := hfirst.length_lt
      rcases decides_separator b mid with ⟨l, mid, rfl⟩ | ⟨l, rest, rfl⟩ | ⟨e, rest, h⟩
      · rw [List.length_cons] at hlt
        rcases ih mid.length (by omega) mid (by omega) rfl with
          ⟨es, l₁, rest, h⟩ | ⟨e, pending, rest, h⟩
        · exact .inl ⟨_, _, _, .more hfirst h⟩
        · exact .inr ⟨_, _, _, .more hfirst h⟩
      · exact .inl ⟨_, _, _, .last hfirst (by simp [NotNext])⟩
      · exact .inr ⟨_, _, _, .separator hfirst h⟩
    · exact .inr ⟨_, _, _, .here h⟩

theorem Decides.call (d l : Nat) (x : String) (ts : List Located) (hn : ts.length ≤ n) :
    (∃ e rest, Reading.Term b.limit d (⟨.name x, l⟩ :: ts) e rest) ∨
      ∃ e pending rest, Term b d (⟨.name x, l⟩ :: ts) e pending rest := by
  rcases decides_mark b .openParen ts with ⟨l', ts, rfl⟩ | ⟨_, _, hmiss⟩
  · rw [List.length_cons] at hn
    rcases decides_mark b .closeParen ts with ⟨l₁, rest, rfl⟩ | ⟨_, _, hmiss⟩
    · exact .inl ⟨_, _, .emptyCall⟩
    · rcases hex.arguments d ts (by omega) with ⟨es, l₁, rest, h⟩ | ⟨e, pending, rest, h⟩
      · exact .inl ⟨_, _, .call h⟩
      · exact .inr ⟨_, _, _, .arguments hmiss.notNext h⟩
  · exact .inl ⟨_, _, .var hmiss.notNext⟩

theorem Decides.term (d : Nat) (ts : List Located) (hn : ts.length ≤ n + 1) :
    (∃ e rest, Reading.Term b.limit d ts e rest) ∨
      ∃ e pending rest, Term b d ts e pending rest := by
  rcases ts with _ | ⟨⟨t, l⟩, ts⟩
  · exact .inr ⟨_, _, _, .start .finish⟩
  rw [List.length_cons, Nat.add_le_add_iff_right] at hn
  cases t with
  | number x => exact .inl ⟨_, _, .number⟩
  | name x => exact hex.call d l x ts hn
  | mark m =>
    by_cases hm : m = .openParen
    · subst hm
      rcases hex d 0 ts hn with ⟨e, mid, hr⟩ | ⟨e, pending, rest, h⟩
      · rcases decides_mark b .closeParen mid with ⟨l', rest, rfl⟩ | ⟨e, rest, hmiss⟩
        · exact .inl ⟨_, _, .group hr⟩
        · exact .inr ⟨_, _, _, .close hr hmiss⟩
      · exact .inr ⟨_, _, _, .group h⟩
    · exact .inr ⟨_, _, _, .start (.token (by simpa using hm))⟩

theorem Decides.chain (m d : Nat) (left : Expr Unit) (ts : List Located) (hn : ts.length ≤ n) :
    (∃ e rest, Reading.Chain b.limit d m ts left e rest) ∨
      ∃ e pending rest, Chain b d m ts left e pending rest := by
  induction hlen : ts.length using Nat.strongRecOn generalizing ts d left with
  | ind k ih =>
    by_cases hstop : Stops m ts
    · exact .inl ⟨_, _, .stop hstop⟩
    rcases ts with _ | ⟨t, ts⟩
    · exact absurd trivial hstop
    obtain ⟨j, hj, hm⟩ : ∃ j, Joint.ofToken? t.token = some j ∧ j.continues m = true := by
      simpa [Stops] using hstop
    rw [List.length_cons] at hn hlen
    by_cases hd : b.limit ≤ d
    · exact .inr ⟨_, _, _, .tooDeep hj hm hd⟩
    rw [Nat.not_le] at hd
    rcases hex (d + 1) j.precedence ts (by omega) with ⟨right, mid, hr⟩ | ⟨e, pending, rest, h⟩
    · have hlt := hr.length_lt
      cases hcomb : j.combine t.line left right with
      | error e => exact .inr ⟨_, _, _, .target hj hm hd hr hcomb⟩
      | ok joined =>
        rcases ih mid.length (by omega) (d + 1) joined mid (by omega) rfl with
          ⟨e, rest, h⟩ | ⟨e, pending, rest, h⟩
        · exact .inl ⟨_, _, .fold hj hm hd hr hcomb h⟩
        · exact .inr ⟨_, _, _, .fold hj hm hd hr hcomb h⟩
    · exact .inr ⟨_, _, _, .operand hj hm hd h⟩

theorem Decides.literal {d : Nat} (m l : Nat) (ts : List Located) (hd : d < b.limit)
    (hn : ts.length ≤ n) :
    (∃ e rest, Reading.Expression b.limit d m (⟨.mark .function, l⟩ :: ts) e rest) ∨
      ∃ e pending rest, Literal b (d + 1) ts e pending rest := by
  rcases decides_mark b .openParen ts with ⟨l', ts, rfl⟩ | ⟨e, rest, hmiss⟩
  swap
  · exact .inr ⟨_, _, _, .parenthesis hmiss⟩
  rcases decides_params b ts with ⟨xs, mid, hp⟩ | ⟨hnot, e, rest, h⟩
  swap
  · exact .inr ⟨_, _, _, .params hnot h⟩
  rcases decides_mark b .arrow mid with ⟨l₁, mid, rfl⟩ | ⟨e, rest, hmiss⟩
  swap
  · exact .inr ⟨_, _, _, .arrow hp hmiss⟩
  rcases decides_mark b .finish mid with ⟨l₂, rest, rfl⟩ | ⟨_, _, hmiss⟩
  · exact .inl ⟨_, _, .emptyFunction hd hp⟩
  have hlt := hp.length_lt
  rw [List.length_cons] at hn hlt
  rcases hex.expressions (d + 1) mid (by omega) with ⟨es, after, h⟩ | ⟨e, pending, rest, h⟩
  · rcases decides_mark b .finish after with ⟨l₂, rest, rfl⟩ | ⟨e, rest, hmiss⟩
    · exact .inl ⟨_, _, .function hd hp h⟩
    · exact .inr ⟨_, _, _, .finish hp h hmiss⟩
  · exact .inr ⟨_, _, _, .body hp hmiss.notNext h⟩

end

section
variable (b : Bounds)

/-- By induction on the number of tokens: each nested expression stands behind one. -/
theorem decides_expression (n : Nat) : Decides b n := by
  induction n with
  | zero =>
    intro d m ts hn
    obtain rfl : ts = [] := List.length_eq_zero_iff.1 (by omega)
    by_cases hd : b.limit ≤ d
    · exact .inr ⟨_, _, _, .tooDeep hd⟩
    · exact .inr ⟨_, _, _, .term (by omega) trivial (.start .finish)⟩
  | succ n ih =>
    intro d m ts hn
    by_cases hd : b.limit ≤ d
    · exact .inr ⟨_, _, _, .tooDeep hd⟩
    rw [Nat.not_le] at hd
    rcases decides_mark b .function ts with ⟨l, ts, rfl⟩ | ⟨_, _, hmiss⟩
    · rcases ih.literal m l ts hd (by simpa using hn) with h | ⟨e, pending, rest, h⟩
      · exact .inl h
      · exact .inr ⟨_, _, _, .literal hd h⟩
    rcases ih.term (d + 1) ts hn with ⟨first, mid, ht⟩ | ⟨e, pending, rest, h⟩
    · have hlt := ht.length_lt
      rcases ih.chain m (d + 1) first mid (by omega) with ⟨e, rest, h⟩ | ⟨e, pending, rest, h⟩
      · exact .inl ⟨_, _, .operation hd ht h⟩
      · exact .inr ⟨_, _, _, .chain hd ht h⟩
    · exact .inr ⟨_, _, _, .term hd hmiss.notNext h⟩

theorem decides_expressions (d : Nat) (ts : List Located) :
    (∃ es rest, Reading.Expressions b.limit d ts es rest) ∨
      ∃ e pending rest, Expressions b d ts e pending rest :=
  (decides_expression b ts.length).expressions d ts (Nat.le_refl _)

theorem decides_statement (d : Nat) (ts : List Located) :
    (∃ es l rest, Reading.Expressions b.limit d ts es (⟨.mark .dot, l⟩ :: rest)) ∨
      ∃ e pending rest, Statement b d ts e pending rest := by
  rcases decides_expressions b d ts with ⟨es, mid, hr⟩ | ⟨e, pending, rest, h⟩
  · rcases decides_mark b .dot mid with ⟨l, rest, rfl⟩ | ⟨e, rest, hmiss⟩
    · exact .inl ⟨es, l, rest, hr⟩
    · exact .inr ⟨_, _, _, .dot hr hmiss⟩
  · exact .inr ⟨_, _, _, .expressions h⟩

theorem decides_program (d : Nat) (ts : List Located) :
    (∃ program, Reading.Program b.limit d ts program) ∨
      ∃ e pending rest, Program b d ts e pending rest := by
  induction hlen : ts.length using Nat.strongRecOn generalizing ts with
  | ind k ih =>
    rcases decides_statement b d ts with ⟨es, l, rest, hr⟩ | ⟨e, pending, rest, h⟩
    swap
    · exact .inr ⟨_, _, _, .here h⟩
    have hlt := hr.length_lt
    obtain ⟨t, ts, rfl, -⟩ := hr.opens
    rcases rest with _ | ⟨u, mid⟩
    · exact .inl ⟨_, .last hr⟩
    · rw [List.length_cons] at hlt
      rcases ih (u :: mid).length (by omega) (u :: mid) rfl with
        ⟨program, h⟩ | ⟨e, pending, rest, h⟩
      · exact .inl ⟨_, .more hr h⟩
      · exact .inr ⟨_, _, _, .more hr h⟩

end

end Failing

end Reckon
