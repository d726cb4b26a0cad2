import Reckon.Proofs.Parse.Derivation
import Reckon.Proofs.Parse.Run

/-!
# The parser accepts its grammar

Whatever the parser reads is derivable (`Reading.Expression.derivable`): operators that the parser
takes at different levels of precedence are operators of one flat chain. Conversely
(`Grammar.Expression.readable`) the parser reads whatever is derivable, given a level for the
expression and two more for each of its tokens. `climb` is the step between the two views: above
any precedence the operator loop takes a part of the chain and leaves a chain.
-/

set_option autoImplicit false

namespace Reckon

/-! ## Joints and their marks -/

theorem Joint.mark_of_ofToken? {t : Token} {j : Joint} (h : Joint.ofToken? t = some j) :
    ∃ m ∈ Grammar.ops, t = .mark m ∧ (m = .equals ↔ j = .assign) := by
  unfold Joint.ofToken? at h
  split at h
  · cases h
    exact ⟨.equals, by simp [Grammar.ops], rfl, by simp⟩
  · cases h
    exact ⟨.plus, by simp [Grammar.ops], rfl, by simp⟩
  · cases h
    exact ⟨.minus, by simp [Grammar.ops], rfl, by simp⟩
  · cases h
    exact ⟨.star, by simp [Grammar.ops], rfl, by simp⟩
  · cases h
    exact ⟨.slash, by simp [Grammar.ops], rfl, by simp⟩
  · cases h

theorem Joint.ofToken?_of_mem {m : Mark} (h : m ∈ Grammar.ops) :
    ∃ j, Joint.ofToken? (.mark m) = some j ∧ (m = .equals ↔ j = .assign) := by
  simp only [Grammar.ops, List.mem_cons, List.not_mem_nil, or_false] at h
  rcases h with rfl | rfl | rfl | rfl | rfl <;> exact ⟨_, rfl, by simp⟩

/-- The trees that can be assigned to. -/
def Expr.IsVar {τ : Type} : Expr τ → Prop
  | .var _ _ => True
  | _ => False

theorem Joint.combine_eq_ok {j : Joint} {line : Nat} {left right e : Expr Unit}
    (h : j.combine line left right = .ok e) : (j = .assign → left.IsVar) ∧ ¬ e.IsVar := by
  cases j with
  | assign =>
    cases left with
    | var x l =>
      cases h
      exact ⟨fun _ => trivial, id⟩
    | _ => cases h
  | arithmetic op =>
    cases h
    exact ⟨nofun, id⟩

theorem Joint.exists_combine {j : Joint} {left : Expr Unit} (h : j = .assign → left.IsVar)
    (line : Nat) (right : Expr Unit) : ∃ e, j.combine line left right = .ok e := by
  cases j with
  | assign =>
    cases left with
    | var x l => exact ⟨_, rfl⟩
    | _ => exact (h rfl).elim
  | arithmetic op => exact ⟨_, rfl⟩

/-! ## Readings are derivable -/

namespace Reading

theorem Names.derivable {ts rest : List Located} {xs : List String} (h : Names ts xs rest) :
    ∃ w, ts = w ++ rest ∧ Grammar.Names w := by
  induction h with
  | @last x l rest => exact ⟨_, rfl, .last x l⟩
  | @more x l l' ts rest xs h ih =>
    obtain ⟨w, rfl, hw⟩ := ih
    exact ⟨_, rfl, .more x l l' hw⟩

theorem Params.derivable {ts rest : List Located} {xs : List String} (h : Params ts xs rest) :
    ∃ w l, ts = w ++ ⟨.mark .closeParen, l⟩ :: rest ∧ Grammar.Params w := by
  cases h with
  | @none l rest => exact ⟨[], l, rfl, .none⟩
  | some h =>
    obtain ⟨w, hw, hn⟩ := h.derivable
    exact ⟨w, _, hw, .some hn⟩

section
variable {limit : Nat}

/-- A chain that ends in a variable has folded nothing. -/
theorem Chain.eq_of_isVar {d m : Nat} {ts rest : List Located} {left e : Expr Unit} :
    Chain limit d m ts left e rest → e.IsVar → left = e ∧ ts = rest
  | .stop _, _ => ⟨rfl, rfl⟩
  | .fold _ _ _ _ hcomb hc, he => by
    obtain ⟨rfl, -⟩ := hc.eq_of_isVar he
    exact absurd he (Joint.combine_eq_ok hcomb).2

mutual

theorem Expression.derivable {d m : Nat} {ts rest : List Located} {e : Expr Unit} :
    Expression limit d m ts e rest → ∃ w, ts = w ++ rest ∧ (e.IsVar → Grammar.Target w) ∧
      (Grammar.Literal w ∨ ∃ x z u, w = x ++ u ∧ Grammar.Term x ∧ Grammar.Tail x z u)
  | @Expression.emptyFunction _ _ _ l l' l₂ l₃ _ _ _ _ hp => by
    obtain ⟨v, l₁, rfl, hv⟩ := hp.derivable
    exact ⟨_, by simp, nofun, .inl (.mk l l' l₁ l₂ l₃ hv .none)⟩
  | @Expression.function _ _ _ l l' l₂ l₃ _ _ _ _ _ _ hp hb => by
    obtain ⟨v, l₁, rfl, hv⟩ := hp.derivable
    obtain ⟨parts, w, rfl, hw⟩ := hb.derivable
    exact ⟨_, by simp, nofun, .inl (.mk l l' l₁ l₂ l₃ hv (.some hw))⟩
  | .operation _ ht hc => by
    have hvar := hc.eq_of_isVar
    obtain ⟨x, rfl, hx, hterm⟩ := ht.derivable
    obtain ⟨z, u, rfl, hu⟩ := hc.derivable x hx
    refine ⟨x ++ u, by simp, fun he => ?_, .inr ⟨x, z, u, rfl, hterm, hu⟩⟩
    obtain ⟨rfl, hrest⟩ := hvar he
    obtain rfl : u = [] := by simpa using hrest
    simpa using hx he

theorem Term.derivable {d : Nat} {ts rest : List Located} {e : Expr Unit} :
    Term limit d ts e rest →
      ∃ w, ts = w ++ rest ∧ (e.IsVar → Grammar.Target w) ∧ Grammar.Term w
  | .number => ⟨_, rfl, nofun, .number _ _⟩
  | .var _ => ⟨_, rfl, fun _ => .name _ _, .name _ _⟩
  | .emptyCall => ⟨_, rfl, nofun, .call _ _ _ _ .none⟩
  | @Term.call _ _ l l' l₁ x _ _ _ hs => by
    obtain ⟨parts, w, rfl, hw⟩ := hs.derivable
    exact ⟨_, by simp, nofun, .call x l l' l₁ (.some hw)⟩
  | @Term.group _ _ l l' _ _ _ h => by
    obtain ⟨w, rfl, hvar, hw⟩ := h.derivable
    refine ⟨_, by simp, fun he => .group l l' (hvar he), .group l l' ?_⟩
    rcases hw with hw | ⟨x, z, u, rfl, hx, hu⟩
    · exact .literal hw
    · exact .chain hx hu

/-- Operators taken by a loop inside join those of the loop around it. -/
theorem Chain.derivable {d m : Nat} {ts rest : List Located} {left e : Expr Unit} :
    Chain limit d m ts left e rest → ∀ x, (left.IsVar → Grammar.Target x) →
      ∃ z u, ts = u ++ rest ∧ Grammar.Tail x z u
  | .stop _ => fun x _ => ⟨x, [], rfl, .nil x⟩
  | @Chain.fold _ _ _ ⟨t, l⟩ j _ _ _ _ _ _ _ hj _ _ h hcomb hc => by
    intro x hx
    obtain ⟨m', hm', rfl, heq⟩ := Joint.mark_of_ofToken? hj
    obtain ⟨hassign, hnot⟩ := Joint.combine_eq_ok hcomb
    have htarget : m' = .equals → Grammar.Target x := fun h => hx (hassign (heq.1 h))
    obtain ⟨w, rfl, -, hw⟩ := h.derivable
    rcases hw with hw | ⟨y, y', u, rfl, hy, hu⟩
    · obtain ⟨z, v, rfl, hv⟩ := hc.derivable w (fun h => absurd h hnot)
      exact ⟨z, _, by simp, .cons l hm' htarget (.literal hw) hv⟩
    · obtain ⟨z, v, rfl, hv⟩ := hc.derivable y' (fun h => absurd h hnot)
      exact ⟨z, _, by simp, .cons l hm' htarget (.term hy) (hu.append hv)⟩

theorem Expressions.derivable {d : Nat} {ts rest : List Located} {es : List (Expr Unit)} :
    Expressions limit d ts es rest → ∃ parts w, ts = w ++ rest ∧ Grammar.Items parts w
  | .last h _ => by
    obtain ⟨w, rfl, -, hw⟩ := h.derivable
    rcases hw with hw | ⟨x, z, u, rfl, hx, hu⟩
    · exact ⟨_, w, rfl, .last (.literal hw)⟩
    · exact ⟨_, _, rfl, .last (.chain hx hu)⟩
  | @Expressions.more _ _ l _ _ _ _ _ h hs => by
    obtain ⟨w, rfl, -, hw⟩ := h.derivable
    obtain ⟨parts, v, rfl, hv⟩ := hs.derivable
    rcases hw with hw | ⟨x, z, u, rfl, hx, hu⟩
    · exact ⟨_, _, by simp, .more l (.literal hw) hv⟩
    · exact ⟨_, _, by simp, .more l (.chain hx hu) hv⟩

end

theorem Program.derivable {d : Nat} {ts : List Located} {program : List (Statement Unit)}
    (h : Program limit d ts program) : ∃ parts, Grammar.Document parts ts := by
  induction h with
  | last h =>
    obtain ⟨items, w, hw, hi⟩ := h.derivable
    rw [hw]
    exact ⟨_, .last _ hi⟩
  | more h _ ih =>
    obtain ⟨items, w, hw, hi⟩ := h.derivable
    obtain ⟨parts, hp⟩ := ih
    rw [hw]
    exact ⟨_, .more _ hi hp⟩

end

/-! What is read is a beginning of the tokens. -/

theorem Params.exists_append {ts rest : List Located} {xs : List String} (h : Params ts xs rest) :
    ∃ w, ts = w ++ rest := by
  obtain ⟨w, l, rfl, -⟩ := h.derivable
  exact ⟨w ++ [⟨.mark .closeParen, l⟩], by simp⟩

section
variable {limit : Nat}

theorem Expression.exists_append {d m : Nat} {ts rest : List Located} {e : Expr Unit}
    (h : Expression limit d m ts e rest) : ∃ w, ts = w ++ rest := by
  obtain ⟨w, hw, -⟩ := h.derivable
  exact ⟨w, hw⟩

theorem Term.exists_append {d : Nat} {ts rest : List Located} {e : Expr Unit}
    (h : Term limit d ts e rest) : ∃ w, ts = w ++ rest := by
  obtain ⟨w, hw, -⟩ := h.derivable
  exact ⟨w, hw⟩

theorem Expressions.exists_append {d : Nat} {ts rest : List Located} {es : List (Expr Unit)}
    (h : Expressions limit d ts es rest) : ∃ w, ts = w ++ rest := by
  obtain ⟨parts, w, hw, -⟩ := h.derivable
  exact ⟨w, hw⟩

end

end Reading

/-! ## What is derivable can be read -/

namespace Grammar

open Reading (NotNext Stops Ends ReadsAs ReadsAsTerm ReadsAsLiteral)

section
variable {limit : Nat}

theorem Target.readsAsTerm (limit : Nat) {w : List Located} (h : Target w) :
    ∃ x l, ReadsAsTerm limit w (.var x l) := by
  induction h with
  | name x l => exact ⟨x, l, fun d rest hrest _ => .var hrest⟩
  | group l l' _ ih =>
    obtain ⟨x, l₁, hw⟩ := ih
    exact ⟨x, l₁, hw.readsAs.group l l'⟩

/-- The parser has one reading of a term. -/
theorem term_unique {d : Nat} {ts rest rest' : List Located} {e e' : Expr Unit}
    (h : Reading.Term limit d ts e rest) (h' : Reading.Term limit d ts e' rest') : e = e' := by
  have hrun := h.run (b := ⟨limit, 0⟩) ts.length (by omega)
  rw [h'.run (b := ⟨limit, 0⟩) ts.length (by omega)] at hrun
  cases hrun
  rfl

theorem Target.isVar {w : List Located} {e : Expr Unit} (h : Target w) (he : ReadsAsTerm limit w e)
    (hw : 2 * w.length ≤ limit) : e.IsVar := by
  obtain ⟨x, l, hx⟩ := h.readsAsTerm limit
  rw [term_unique (he 0 [] trivial (by omega)) (hx 0 [] trivial (by omega))]
  trivial

/-- A chain of operators and readable operands. The proposition is what may be assumed of the
operand before it when it is to be assigned to. -/
inductive Ready (limit : Nat) : Prop → List Located → Prop
  | nil {p : Prop} : Ready limit p []
  | term {p q : Prop} {t : Located} {j : Joint} {y w : List Located} {e : Expr Unit} :
      Joint.ofToken? t.token = some j → (j = .assign → p) → ReadsAsTerm limit y e →
      (q → e.IsVar) → Ready limit q w → Ready limit p (t :: (y ++ w))
  | literal {p : Prop} {t : Located} {j : Joint} {y w : List Located} {e : Expr Unit} :
      Joint.ofToken? t.token = some j → (j = .assign → p) → ReadsAsLiteral limit y e →
      Ready limit False w → Ready limit p (t :: (y ++ w))

theorem Ready.notNext {p : Prop} {w rest : List Located} (h : Ready limit p w)
    (hrest : NotNext .openParen rest) : NotNext .openParen (w ++ rest) := by
  have hjoint : ∀ {t : Located} {j : Joint}, Joint.ofToken? t.token = some j →
      t.token ≠ .mark .openParen := fun hj ht => by
    rw [ht] at hj
    cases hj
  cases h with
  | nil => exact hrest
  | term hj => exact hjoint hj
  | literal hj => exact hjoint hj

/-- Above no precedence at all, a chain does not stop. -/
theorem Ready.eq_nil {p : Prop} {w : List Located} (h : Ready limit p w) (hs : Stops 0 w) :
    w = [] := by
  have hcont : ∀ j : Joint, j.continues 0 = true := by
    rintro (_ | op)
    · rfl
    · cases op <;> rfl
  cases h with
  | nil => rfl
  | @term _ _ _ j _ _ _ hj => exact absurd (hs j hj) (by simp [hcont j])
  | @literal _ _ j _ _ _ hj => exact absurd (hs j hj) (by simp [hcont j])

theorem Ready.imp {p q : Prop} {w : List Located} (h : Ready limit p w) (hpq : p → q) :
    Ready limit q w := by
  cases h with
  | nil => exact .nil
  | term hj hp hy hq hw => exact .term hj (fun h => hpq (hp h)) hy hq hw
  | literal hj hp hy hw => exact .literal hj (fun h => hpq (hp h)) hy hw

/-- A chain at which a loop stops does not start with an assignment. -/
theorem Ready.of_stops {m : Nat} {p : Prop} {w : List Located} (h : Ready limit p w)
    (hs : Stops m w) : Ready limit False w := by
  have hne : ∀ {t : Located} {j : Joint} {w : List Located}, Stops m (t :: w) →
      Joint.ofToken? t.token = some j → j = .assign → False := by
    rintro t j w hs hj rfl
    exact absurd (hs _ hj) (by simp [Joint.continues])
  cases h with
  | nil => exact .nil
  | term hj _ hy hq hw => exact .term hj (hne hs hj) hy hq hw
  | literal hj _ hy hw => exact .literal hj (hne hs hj) hy hw

theorem Literal.not_target {w : List Located} (h : Literal w) : ¬ Target w := by
  cases h
  intro ht
  cases ht

theorem continues_of_not_stops {m : Nat} {t : Located} {j : Joint} {w : List Located}
    (hs : ¬ Stops m (t :: w)) (hj : Joint.ofToken? t.token = some j) : j.continues m = true := by
  by_contra hm
  refine hs fun j' hj' => ?_
  rw [hj] at hj'
  cases hj'
  simpa using hm

/-- The operator loop above the precedence `m` takes a part `u` of a chain and leaves a chain `v`
that does not go on with an assignment. By induction on the length: the loop for the right operand
of an operator leaves the chain on which the loop itself goes on. -/
theorem climb (m : Nat) (left : Expr Unit) {p : Prop} {w : List Located} (h : Ready limit p w)
    (hp : p → left.IsVar) : ∃ e u v, w = u ++ v ∧ Ready limit False v ∧ Stops m v ∧
      ∀ d rest, Ends rest → d + 2 * u.length ≤ limit →
        Reading.Chain limit d m (w ++ rest) left e (v ++ rest) := by
  induction hn : w.length using Nat.strongRecOn generalizing m p w left with
  | ind n ih =>
    by_cases hstop : Stops m w
    · exact ⟨left, [], w, rfl, h.of_stops hstop, hstop,
        fun d rest hrest _ => .stop (hstop.append hrest)⟩
    cases h with
    | nil => exact absurd trivial hstop
    | @term _ q t j y w e hj hassign hy hq hw =>
      have hm := continues_of_not_stops hstop hj
      simp only [List.length_cons, List.length_append] at hn
      -- the loop of the right operand, above the precedence of its own operator
      obtain ⟨right, u₁, v₁, rfl, hv₁, -, hread₁⟩ := ih w.length (by omega) j.precedence e hw hq rfl
      obtain ⟨joined, hjoined⟩ := Joint.exists_combine (fun h => hp (hassign h)) t.line right
      simp only [List.length_append] at hn
      -- what that loop leaves never starts with `=`, so that `joined` need not be a variable
      obtain ⟨e₂, u₂, v, rfl, hv, hs, hread⟩ := ih v₁.length (by omega) m joined hv₁ False.elim rfl
      refine ⟨e₂, t :: (y ++ (u₁ ++ u₂)), v, by simp, hv, hs, fun d rest hrest hd => ?_⟩
      simp only [List.length_cons, List.length_append] at hd
      have hterm := hy (d + 2) ((u₁ ++ (u₂ ++ v)) ++ rest) (hw.notNext hrest.notNext) (by omega)
      have hright := hread₁ (d + 2) rest hrest (by omega)
      have hchain := hread (d + 1) rest hrest (by omega)
      rw [List.cons_append, List.append_assoc]
      exact .fold hj hm (by omega) (.operation (by omega) hterm hright) hjoined hchain
    | @literal _ t j y w e hj hassign hy hw =>
      have hm := continues_of_not_stops hstop hj
      simp only [List.length_cons, List.length_append] at hn
      obtain ⟨joined, hjoined⟩ := Joint.exists_combine (fun h => hp (hassign h)) t.line e
      obtain ⟨e₂, u₂, v, rfl, hv, hs, hread⟩ := ih w.length (by omega) m joined hw False.elim rfl
      refine ⟨e₂, t :: (y ++ u₂), v, by simp, hv, hs, fun d rest hrest hd => ?_⟩
      simp only [List.length_cons, List.length_append] at hd
      -- a function takes no operator after it, whatever the precedence
      have hright := hy (d + 1) j.precedence ((u₂ ++ v) ++ rest) (by omega)
      have hchain := hread (d + 1) rest hrest (by omega)
      rw [List.cons_append, List.append_assoc]
      exact .fold hj hm (by omega) hright hjoined hchain

/-- A whole chain is read above no precedence. -/
theorem Ready.readsAs {x w : List Located} {p : Prop} {e : Expr Unit} (hx : ReadsAsTerm limit x e)
    (hw : Ready limit p w) (hp : p → e.IsVar) : ∃ e', ReadsAs limit (x ++ w) e' := by
  obtain ⟨e', u, v, rfl, hv, hs, hread⟩ := climb 0 e hw hp
  obtain rfl := hv.eq_nil hs
  refine ⟨e', fun d rest hrest hd => ?_⟩
  simp only [List.length_append, List.length_nil] at hd
  have hterm := hx (d + 1) ((u ++ []) ++ rest) (hw.notNext hrest.notNext) (by omega)
  rw [List.append_assoc]
  exact .operation (by omega) hterm (hread (d + 1) rest hrest (by omega))

/-! ### Derivations -/

theorem Names.reads {w : List Located} (h : Names w) :
    ∃ xs, ∀ rest, Reading.Names (w ++ rest) xs rest := by
  induction h with
  | last x l => exact ⟨[x], fun rest => .last⟩
  | more x l l' _ ih =>
    obtain ⟨xs, hxs⟩ := ih
    exact ⟨x :: xs, fun rest => .more (hxs rest)⟩

theorem Params.reads {w : List Located} (h : Params w) :
    ∃ xs, ∀ l rest, Reading.Params (w ++ ⟨.mark .closeParen, l⟩ :: rest) xs rest := by
  cases h with
  | none => exact ⟨[], fun l rest => .none⟩
  | some h =>
    obtain ⟨xs, hxs⟩ := h.reads
    exact ⟨xs, fun l rest => .some (hxs _)⟩

/-- `w` is read as the expressions `es`, part by part. -/
structure ReadsAll (limit : Nat) (parts : List (List Located)) (w : List Located)
    (es : List (Expr Unit)) : Prop where
  parts : List.Forall₂ (fun v e => v.length ≤ w.length ∧ ReadsAs limit v e) parts es
  whole : ∀ d rest, Ends rest → NotNext .comma rest → d + 2 * w.length + 1 ≤ limit →
    Reading.Expressions limit d (w ++ rest) es rest

mutual

theorem Term.readable {w : List Located} :
    Term w → 2 * w.length ≤ limit → ∃ e, ReadsAsTerm limit w e
  | .number x l, _ => ⟨_, fun _ _ _ _ => .number⟩
  | .name x l, _ => ⟨_, fun _ _ hrest _ => .var hrest⟩
  | .call x l l' l₁ .none, _ => ⟨_, fun _ _ _ _ => .emptyCall⟩
  | .call x l l' l₁ (.some (w := w) hw), hlimit => by
    simp only [List.length_cons, List.length_append, List.length_nil] at hlimit
    obtain ⟨es, hes⟩ := hw.readable (by omega)
    refine ⟨.call x es l, fun d rest _ hd => ?_⟩
    simp only [List.length_cons, List.length_append, List.length_nil] at hd
    rw [List.cons_append, List.cons_append, List.append_assoc]
    exact .call (hes.whole d _ (Reading.ends_mark rfl (by decide) _ _) (by simp [NotNext])
      (by omega))
  | .group l l' hw, hlimit => by
    simp only [List.length_cons, List.length_append, List.length_nil] at hlimit
    obtain ⟨e, he⟩ := hw.readable (by omega)
    exact ⟨e, he.group l l'⟩

theorem Literal.readable {w : List Located} :
    Literal w → 2 * w.length ≤ limit → ∃ e, ReadsAsLiteral limit w e
  | .mk l l' l₁ l₂ l₃ hv .none, _ => by
    obtain ⟨xs, hxs⟩ := hv.reads
    refine ⟨.function () xs [] l, fun d m rest hd => ?_⟩
    simp only [List.cons_append, List.append_assoc, List.nil_append]
    exact .emptyFunction (by omega) (hxs _ _)
  | .mk l l' l₁ l₂ l₃ hv (.some (w := w) hw), hlimit => by
    simp only [List.length_cons, List.length_append, List.length_nil] at hlimit
    obtain ⟨xs, hxs⟩ := hv.reads
    obtain ⟨es, hes⟩ := hw.readable (by omega)
    refine ⟨.function () xs es l, fun d m rest hd => ?_⟩
    simp only [List.length_cons, List.length_append, List.length_nil] at hd
    simp only [List.cons_append, List.append_assoc, List.nil_append]
    exact .function (by omega) (hxs _ _)
      (hes.whole _ _ (Reading.ends_mark rfl (by decide) _ _) (by simp [NotNext]) (by omega))

theorem Tail.ready {x z w : List Located} :
    Tail x z w → 2 * w.length ≤ limit → Ready limit (Target x) w
  | .nil _, _ => .nil
  | .cons l hm htarget (.term hy) hw, hlimit => by
    simp only [List.length_cons, List.length_append] at hlimit
    obtain ⟨j, hj, heq⟩ := Joint.ofToken?_of_mem hm
    obtain ⟨e, he⟩ := hy.readable (by omega)
    exact .term hj (fun h => htarget (heq.2 h)) he (fun ht => ht.isVar he (by omega))
      (hw.ready (by omega))
  | .cons l hm htarget (.literal hy) hw, hlimit => by
    simp only [List.length_cons, List.length_append] at hlimit
    obtain ⟨j, hj, heq⟩ := Joint.ofToken?_of_mem hm
    obtain ⟨e, he⟩ := hy.readable (by omega)
    exact .literal hj (fun h => htarget (heq.2 h)) he ((hw.ready (by omega)).imp hy.not_target)

theorem Expression.readable {w : List Located} :
    Expression w → 2 * w.length ≤ limit → ∃ e, ReadsAs limit w e
  | .literal hw, hlimit => by
    obtain ⟨e, he⟩ := hw.readable hlimit
    exact ⟨e, fun d rest _ hd => he d 0 rest hd⟩
  | .chain hx hw, hlimit => by
    simp only [List.length_append] at hlimit
    obtain ⟨e, he⟩ := hx.readable (by omega)
    exact (hw.ready (by omega)).readsAs he fun ht => ht.isVar he (by omega)

theorem Items.readable {parts : List (List Located)} {w : List Located} :
    Items parts w → 2 * w.length ≤ limit → ∃ es, ReadsAll limit parts w es
  | .last hw, hlimit => by
    obtain ⟨e, he⟩ := hw.readable hlimit
    exact ⟨[e], .cons ⟨Nat.le_refl _, he⟩ .nil,
      fun d rest hrest hcomma hd => .last (he d rest hrest hd) hcomma⟩
  | @Items.more l v w parts hv hw, hlimit => by
    simp only [List.length_append, List.length_cons] at hlimit
    obtain ⟨e, he⟩ := hv.readable (by omega)
    obtain ⟨es, hes⟩ := hw.readable (by omega)
    have hle : w.length ≤ (v ++ ⟨.mark .comma, l⟩ :: w).length := by
      simp only [List.length_append, List.length_cons]
      omega
    refine ⟨e :: es, .cons ⟨by simp, he⟩ ?_, fun d rest hrest hcomma hd => ?_⟩
    · exact hes.parts.imp fun _ _ h => ⟨Nat.le_trans h.1 hle, h.2⟩
    simp only [List.length_append, List.length_cons] at hd
    rw [List.append_assoc, List.cons_append]
    exact .more (he d _ (Reading.ends_mark rfl (by decide) _ _) (by omega))
      (hes.whole d rest hrest hcomma (by omega))

end

theorem Expression.eq_cons {w : List Located} (h : Expression w) : ∃ t v, w = t :: v := by
  cases h with
  | literal h =>
    cases h
    exact ⟨_, _, rfl⟩
  | chain h _ => cases h <;> exact ⟨_, _, rfl⟩

theorem Items.eq_cons {items : List (List Located)} {w : List Located} (h : Items items w) :
    ∃ t v, w = t :: v ∧ items.flatten.head? = some t := by
  cases h with
  | last h =>
    obtain ⟨t, v, rfl⟩ := h.eq_cons
    exact ⟨t, v, rfl, rfl⟩
  | more l h _ =>
    obtain ⟨t, v, rfl⟩ := h.eq_cons
    exact ⟨t, _, rfl, rfl⟩

/-- The statement `s` is what the parser makes of the expressions `items`: one tree for each of
them, in their order, and the line of the first token. -/
structure Parsed (b : Bounds) (items : List (List Located)) (s : Statement Unit) : Prop where
  nonempty : s.expressions ≠ []
  trees : List.Forall₂ (fun w e => Parser.expression b 0 { rest := w } = .ok e { rest := [] })
    items s.expressions
  line : items.flatten.head?.map Located.line = some s.line

theorem Items.parsed {b : Bounds} {items : List (List Located)} {w : List Located}
    (h : Items items w) (hw : 2 * w.length + 1 ≤ b.limit) :
    ∃ s, Parsed b items s ∧ ∃ t v, w = t :: v ∧ s.line = t.line ∧
      ∀ l rest, Reading.Expressions b.limit 0 (w ++ ⟨.mark .dot, l⟩ :: rest) s.expressions
        (⟨.mark .dot, l⟩ :: rest) := by
  obtain ⟨es, hparts, hwhole⟩ : ∃ es, ReadsAll b.limit items w es := h.readable (by omega)
  obtain ⟨t, v, rfl, hhead⟩ := h.eq_cons
  have hread : ∀ l rest, Reading.Expressions b.limit 0 (t :: v ++ ⟨.mark .dot, l⟩ :: rest) es
      (⟨.mark .dot, l⟩ :: rest) := fun l rest =>
    hwhole 0 _ (Reading.ends_mark rfl (by decide) _ _) (by simp [NotNext]) (by omega)
  refine ⟨⟨es, t.line⟩, ⟨?_, ?_, by rw [hhead]; rfl⟩, t, v, rfl, rfl, hread⟩
  · rintro rfl
    cases hread 0 []
  · refine hparts.imp fun w e h => ?_
    have hlen := h.1
    have hr := h.2 0 [] trivial (by omega)
    rw [List.append_nil] at hr
    exact Parser.expression_eq_ok_iff.2 ⟨hr, rfl⟩

theorem Document.parsed {b : Bounds} {parts : List (List (List Located))} {w : List Located}
    (h : Document parts w) (hw : 2 * w.length + 1 ≤ b.limit) :
    ∃ program, Reading.Program b.limit 0 w program ∧ List.Forall₂ (Parsed b) parts program := by
  induction h with
  | last l hi =>
    simp only [List.length_append, List.length_cons] at hw
    obtain ⟨⟨es, line⟩, hs, t, v, rfl, rfl, hread⟩ := hi.parsed (b := b) (by omega)
    exact ⟨_, .last (hread l []), .cons hs .nil⟩
  | more l hi hd ih =>
    simp only [List.length_append, List.length_cons] at hw
    obtain ⟨⟨es, line⟩, hs, t, v, rfl, rfl, hread⟩ := hi.parsed (b := b) (by omega)
    obtain ⟨program, hprogram, hparts⟩ := ih (by omega)
    have hread := hread l
    cases hprogram with
    | last h => exact ⟨_, .more (hread _) (.last h), .cons hs hparts⟩
    | more h hp => exact ⟨_, .more (hread _) (.more h hp), .cons hs hparts⟩

end

end Grammar

/-- Given a level and two more for each token, the parser accepts exactly the documents of the
grammar. It then uses up the tokens, and its program has a statement for each statement of the
document, with a tree for each of its expressions, in order, and with the line of its first token.
-/
theorem statements_ok_iff_document (b : Bounds) (ts : List Located)
    (h : 2 * ts.length + 1 ≤ b.limit) :
    ((∃ program c, Parser.statements b { rest := ts } = .ok program c) ↔
      ∃ parts, Grammar.Document parts ts) ∧
    ∀ program c, Parser.statements b { rest := ts } = .ok program c → c.rest = [] ∧
      ∀ parts, Grammar.Document parts ts → List.Forall₂ (Grammar.Parsed b) parts program := by
  refine ⟨⟨?_, ?_⟩, fun program c hrun => ?_⟩
  · rintro ⟨program, c, hrun⟩
    exact (Parser.statements_eq_ok_iff.1 hrun).1.derivable
  · rintro ⟨parts, hparts⟩
    obtain ⟨program, hprogram, -⟩ := hparts.parsed h
    exact ⟨program, ⟨[], 0⟩, Parser.statements_eq_ok_iff.2 ⟨hprogram, rfl⟩⟩
  · obtain ⟨-, rfl⟩ := Parser.statements_eq_ok_iff.1 hrun
    refine ⟨rfl, fun parts hparts => ?_⟩
    obtain ⟨program', hprogram, hs⟩ := hparts.parsed h
    rw [Parser.statements_eq_ok_iff.2 ⟨hprogram, rfl⟩] at hrun
    cases hrun
    exact hs

/-- The tokens of `(x) = 1 * y = 2.`: two assignments, the second inside an operand. -/
theorem statements_ok_iff_document_assignments :
    2 * 10 + 1 ≤ (⟨21, 1⟩ : Bounds).limit ∧ ∃ parts, Grammar.Document parts
      [⟨.mark .openParen, 1⟩, ⟨.name "x", 1⟩, ⟨.mark .closeParen, 1⟩, ⟨.mark .equals, 1⟩,
        ⟨.number 1, 1⟩, ⟨.mark .star, 1⟩, ⟨.name "y", 1⟩, ⟨.mark .equals, 1⟩, ⟨.number 2, 1⟩,
        ⟨.mark .dot, 1⟩] :=
  ⟨by decide, (statements_ok_iff_document ⟨21, 1⟩ _ (by decide)).1.1
    ⟨[⟨[.assign "x" (.arithmetic .multiply (.number 1 1) (.assign "y" (.number 2 1) 1) 1) 1], 1⟩],
      { rest := [] }, by decide +kernel⟩⟩

end Reckon
