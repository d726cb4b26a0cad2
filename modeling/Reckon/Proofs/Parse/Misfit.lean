import Reckon.Proofs.Parse.Run

/-!
# Tokens that do not fit

Some errors blame a token, or the end of the tokens, for not fitting what was read before. This
module says what such an outcome rests on. `Settles endLine slack V p c`: what `p` does at the cursor
`c` is settled by the tokens that it takes and by the one after them. If it succeeds, it does so in
front of any tokens that start alike; if it blames a token, it blames that token whatever follows,
and an end that it blames is on the line `endLine`. The tokens before the blamed one have the property
`V`, which is for the reader of the parser to choose.

Outcomes of sequences are settled if those of their parts are (`Settles.bind`). The other rules are
for the ways in which parsers look at tokens: not at all, at the first one without taking it
(`Settles.of_head`), and taking it (`Settles.step`). The `slack` is by how much the other tokens may
be longer than those at hand; the parser's bounds have to cover it.
-/

set_option autoImplicit false

namespace Reckon

namespace SyntaxError

/-- What the error has found in place of something that fits: a token, by its description, or the
end of the tokens. -/
def found? : SyntaxError → Option String
  | expected _ found _ => some found
  | unexpectedToken token _ => some token
  | unexpectedEnd _ => some "end of input"
  | _ => none

/-- The error is about a token that does not fit, or about the end of the tokens. -/
def IsMisfit (e : SyntaxError) : Prop := e.found? ≠ none

/-- The error is about the end of the tokens. -/
def IsAtEnd (e : SyntaxError) : Prop := e.found? = some "end of input"

instance (e : SyntaxError) : Decidable e.IsMisfit := inferInstanceAs (Decidable (e.found? ≠ none))

instance (e : SyntaxError) : Decidable e.IsAtEnd := inferInstanceAs (Decidable (e.found? = _))

/-- The error is about the token `t`. -/
structure Blames (e : SyntaxError) (t : Located) : Prop where
  found : e.found? = some t.token.description
  line : e.line = t.line

/-- No token is described as the end of the tokens: the first letters differ. -/
theorem Blames.not_isAtEnd {e : SyntaxError} {t : Located} (h : e.Blames t) : ¬ e.IsAtEnd := by
  intro hend
  rw [IsAtEnd, h.found] at hend
  have hfirst := congrArg (fun s : Option String => s.bind (·.toList.head?)) hend
  cases ht : t.token with
  | number x => simp [ht, Token.description, toString] at hfirst
  | name x => simp [ht, Token.description, toString] at hfirst
  | mark m =>
    rw [ht] at hfirst
    revert hfirst
    cases m <;> decide

end SyntaxError

namespace Parser

section
variable {α β : Type}

/-- `read` are the tokens before the one that `e` blames, or all tokens if it blames their end. -/
inductive Stuck (endLine slack : Nat) (p : Parser α) (c : Cursor) (e : SyntaxError) (c' : Cursor)
    (read : List Located) : Prop
  | token {t : Located} : c.rest = read ++ t :: c'.rest → e.Blames t →
      (∀ more, more.length ≤ c'.rest.length + slack →
        ∃ d, p ⟨read ++ t :: more, c.depth⟩ = .error e ⟨more, d⟩) →
      Stuck endLine slack p c e c' read
  | finish : c.rest = read → c'.rest = [] → e.IsAtEnd → e.line = endLine →
      Stuck endLine slack p c e c' read

structure Settles (endLine slack : Nat) (V : List Located → Prop) (p : Parser α) (c : Cursor) :
    Prop where
  ok : ∀ a c', p c = .ok a c' → ∃ w, c.rest = w ++ c'.rest ∧
    ∀ more, more.length ≤ c'.rest.length + slack → more.head? = c'.rest.head? →
      p ⟨w ++ more, c.depth⟩ = .ok a ⟨more, c'.depth⟩
  error : ∀ e c', p c = .error e c' → e.IsMisfit →
    ∃ read, Stuck endLine slack p c e c' read ∧ V read

namespace Settles

variable {endLine slack : Nat} {V W : List Located → Prop} {p q : Parser α} {c : Cursor}

theorem mono (h : Settles endLine slack V p c) (hVW : ∀ read, V read → W read) :
    Settles endLine slack W p c := by
  refine ⟨h.ok, fun e c' he hmis => ?_⟩
  obtain ⟨read, hstuck, hV⟩ := h.error e c' he hmis
  exact ⟨read, hstuck, hVW read hV⟩

theorem head?_append_congr {w ts more : List Located} (h : more.head? = ts.head?) :
    (w ++ more).head? = (w ++ ts).head? := by
  rw [List.head?_append, List.head?_append, h]

theorem bind {f : α → Parser β} (h : Settles endLine slack V p c)
    (hf : ∀ a c' w, p c = .ok a c' → c.rest = w ++ c'.rest →
      Settles endLine slack (fun read => V (w ++ read)) (f a) c') :
    Settles endLine slack V (p >>= f) c := by
  constructor
  · intro b c₂ hrun
    obtain ⟨a, c₁, hp, hfa⟩ := bind_eq_ok_iff.1 hrun
    obtain ⟨w, hw, hsame⟩ := h.ok a c₁ hp
    obtain ⟨w', hw', hsame'⟩ := (hf a c₁ w hp hw).ok b c₂ hfa
    refine ⟨w ++ w', by rw [hw, hw', List.append_assoc], fun more hlen hhead => ?_⟩
    have hfirst := hsame (w' ++ more)
      (by rw [hw', List.length_append, List.length_append]; omega)
      (by rw [hw']; exact head?_append_congr hhead)
    rw [List.append_assoc, bind_of_ok hfirst]
    exact hsame' more hlen hhead
  · intro e c₂ hrun hmis
    cases hp : p c with
    | error e' c₁ =>
      rw [bind_of_error hp] at hrun
      cases hrun
      obtain ⟨read, hstuck, hV⟩ := h.error e c₂ hp hmis
      refine ⟨read, ?_, hV⟩
      cases hstuck with
      | finish hread hrest hend hline => exact .finish hread hrest hend hline
      | token hread hblame hsame =>
        refine .token hread hblame fun more hlen => ?_
        obtain ⟨d, hd⟩ := hsame more hlen
        exact ⟨d, bind_of_error hd⟩
    | ok a c₁ =>
      rw [bind_of_ok hp] at hrun
      obtain ⟨w, hw, hsame⟩ := h.ok a c₁ hp
      obtain ⟨read, hstuck, hV⟩ := (hf a c₁ w hp hw).error e c₂ hrun hmis
      refine ⟨w ++ read, ?_, hV⟩
      cases hstuck with
      | finish hread hrest hend hline => exact .finish (by rw [hw, hread]) hrest hend hline
      | @token t hread hblame hsame' =>
        refine .token (by rw [hw, hread, List.append_assoc]) hblame fun more hlen => ?_
        have hfirst := hsame (read ++ t :: more)
          (by rw [hread]; simp only [List.length_append, List.length_cons]; omega)
          (by rw [hread]; exact head?_append_congr rfl)
        obtain ⟨d, hd⟩ := hsame' more hlen
        exact ⟨d, by rw [List.append_assoc, bind_of_ok hfirst, hd]⟩

/-- A parser that looks at the first token and goes on as `q`, perhaps on another level. -/
theorem of_head {d : Nat} (h : Settles endLine slack V q ⟨c.rest, d⟩)
    (heq : ∀ ts, ts.head? = c.rest.head? → p ⟨ts, c.depth⟩ = q ⟨ts, d⟩) :
    Settles endLine slack V p c := by
  have hc : p c = q ⟨c.rest, d⟩ := heq c.rest rfl
  constructor
  · intro a c' hp
    obtain ⟨w, hw, hsame⟩ := h.ok a c' (hc ▸ hp)
    simp only at hw
    refine ⟨w, hw, fun more hlen hhead => ?_⟩
    rw [heq (w ++ more) (by rw [hw]; exact head?_append_congr hhead)]
    exact hsame more hlen hhead
  · intro e c' hp hmis
    obtain ⟨read, hstuck, hV⟩ := h.error e c' (hc ▸ hp) hmis
    refine ⟨read, ?_, hV⟩
    cases hstuck with
    | finish hread hrest hend hline => exact .finish hread hrest hend hline
    | token hread hblame hsame =>
      simp only at hread
      refine .token hread hblame fun more hlen => ?_
      rw [heq _ (by rw [hread]; exact head?_append_congr rfl)]
      exact hsame more hlen

/-- A parser that takes the first token and goes on as `q`. -/
theorem step {t : Located} {ts : List Located} {d : Nat}
    (h : Settles endLine slack (fun read => V (t :: read)) q ⟨ts, d⟩)
    (heq : ∀ more, p ⟨t :: more, d⟩ = q ⟨more, d⟩) : Settles endLine slack V p ⟨t :: ts, d⟩ := by
  constructor
  · intro a c' hp
    obtain ⟨w, hw, hsame⟩ := h.ok a c' (heq ts ▸ hp)
    refine ⟨t :: w, congrArg (t :: ·) hw, fun more hlen hhead => ?_⟩
    exact (heq _).trans (hsame more hlen hhead)
  · intro e c' hp hmis
    obtain ⟨read, hstuck, hV⟩ := h.error e c' (heq ts ▸ hp) hmis
    refine ⟨t :: read, ?_, hV⟩
    cases hstuck with
    | finish hread hrest hend hline =>
      exact .finish (congrArg (t :: ·) hread) hrest hend hline
    | token hread hblame hsame =>
      refine .token (congrArg (t :: ·) hread) hblame fun more hlen => ?_
      obtain ⟨d', hd'⟩ := hsame more hlen
      exact ⟨d', (heq _).trans hd'⟩

theorem pure (a : α) : Settles endLine slack V (Pure.pure a : Parser α) c := by
  constructor
  · intro a' c' hp
    cases hp
    exact ⟨[], rfl, fun _ _ _ => rfl⟩
  · intro e c' hp
    cases hp

/-- An error that is not about tokens. -/
theorem of_error {e : SyntaxError} {c' : Cursor} (h : p c = .error e c') (he : e.found? = none) :
    Settles endLine slack V p c := by
  constructor
  · intro a c₁ hp
    rw [h] at hp
    cases hp
  · intro e' c₁ hp hmis
    rw [h] at hp
    cases hp
    exact absurd he hmis

theorem blame {t : Located} {ts : List Located} {d : Nat} {e : SyntaxError}
    (heq : ∀ more, p ⟨t :: more, d⟩ = .error e ⟨more, d⟩) (he : e.Blames t) (hV : V []) :
    Settles endLine slack V p ⟨t :: ts, d⟩ := by
  constructor
  · intro a c' hp
    rw [heq ts] at hp
    cases hp
  · intro e' c' hp _
    rw [heq ts] at hp
    cases hp
    exact ⟨[], .token rfl he fun more _ => ⟨d, heq more⟩, hV⟩

theorem blameEnd {d : Nat} {e : SyntaxError} (heq : p ⟨[], d⟩ = .error e ⟨[], d⟩) (he : e.IsAtEnd)
    (hline : e.line = endLine) (hV : V []) : Settles endLine slack V p ⟨[], d⟩ := by
  constructor
  · intro a c' hp
    rw [heq] at hp
    cases hp
  · intro e' c' hp _
    rw [heq] at hp
    cases hp
    exact ⟨[], .finish rfl rfl he hline, hV⟩

end Settles

end

/-! ## The parts of the parser -/

section
variable {α β : Type} {b : Bounds} {slack : Nat} {V : List Located → Prop} {c : Cursor}

theorem Settles.nested {p : Parser α}
    (h : Settles b.endLine slack V p { c with depth := c.depth + 1 }) :
    Settles b.endLine slack V (Parser.nested b p) c := by
  by_cases hd : b.limit ≤ c.depth
  · exact .of_error (by rw [nested_eq, if_pos hd]) rfl
  have hrun (ts : List Located) := (nested_eq p ⟨ts, c.depth⟩).trans (if_neg hd)
  constructor
  · intro a c' hp
    obtain ⟨-, c₁, h₁, rfl⟩ := nested_eq_ok_iff.1 hp
    obtain ⟨w, hw, hsame⟩ := h.ok a c₁ h₁
    refine ⟨w, hw, fun more hlen hhead => ?_⟩
    rw [hrun, hsame more hlen hhead]
  · intro e c' hp hmis
    rw [show c = ⟨c.rest, c.depth⟩ from rfl, hrun] at hp
    cases h₁ : p ⟨c.rest, c.depth + 1⟩ with
    | ok a c₁ =>
      rw [h₁] at hp
      cases hp
    | error e₁ c₁ =>
      rw [h₁] at hp
      cases hp
      obtain ⟨read, hstuck, hV⟩ := h.error e c₁ h₁ hmis
      refine ⟨read, ?_, hV⟩
      cases hstuck with
      | finish hread hrest hend hline => exact .finish hread hrest hend hline
      | token hread hblame hsame =>
        refine .token hread hblame fun more hlen => ?_
        obtain ⟨d, hd⟩ := hsame more hlen
        exact ⟨d - 1, by rw [hrun, hd]⟩

/-- A level is opened before `f` goes on. -/
theorem Settles.bind_enter {f : Unit → Parser α} {line : Nat}
    (h : Settles b.endLine slack V (f ()) { c with depth := c.depth + 1 }) :
    Settles b.endLine slack V (enter b line >>= f) c := by
  by_cases hd : b.limit ≤ c.depth
  · exact .of_error (bind_of_error (by rw [enter, if_pos hd])) rfl
  · exact .of_head h fun ts _ => bind_of_ok (by rw [enter, if_neg hd])

theorem settles_expect {m : Mark} (hV : V []) : Settles b.endLine slack V (expect b m) c := by
  obtain ⟨_ | ⟨⟨t, l⟩, ts⟩, d⟩ := c
  · exact .blameEnd rfl rfl rfl hV
  · have hrun : ∀ more, expect b m ⟨⟨t, l⟩ :: more, d⟩ = (if t = .mark m then (pure l : Parser Nat)
        else throw (.expected m.description t.description l)) ⟨more, d⟩ := fun _ => rfl
    by_cases ht : t = .mark m
    · exact .step (.pure l) fun more => by rw [hrun, if_pos ht]
    · exact .blame (fun more => by rw [hrun, if_neg ht]; rfl) ⟨rfl, rfl⟩ hV

theorem settles_name (hV : V []) : Settles b.endLine slack V (name b) c := by
  obtain ⟨_ | ⟨⟨t, l⟩, ts⟩, d⟩ := c
  · exact .blameEnd rfl rfl rfl hV
  · cases t with
    | name x => exact .step (.pure x) fun _ => rfl
    | number x => exact .blame (fun _ => rfl) ⟨rfl, rfl⟩ hV
    | mark m => exact .blame (fun _ => rfl) ⟨rfl, rfl⟩ hV

theorem Settles.bind_expect {m : Mark} {f : Nat → Parser β} (hV : V [])
    (h : ∀ l c', c.rest = ⟨.mark m, l⟩ :: c'.rest →
      Settles b.endLine slack (fun read => V (⟨.mark m, l⟩ :: read)) (f l) c') :
    Settles b.endLine slack V (expect b m >>= f) c := by
  refine (settles_expect hV).bind fun l c' w hrun hw => ?_
  obtain ⟨hc, -⟩ := expect_eq_ok hrun
  obtain rfl : w = [⟨.mark m, l⟩] :=
    List.append_cancel_right (show w ++ c'.rest = [⟨.mark m, l⟩] ++ c'.rest from hw.symm.trans hc)
  exact h l c' hc

end

end Parser

end Reckon
