import Reckon.Proofs.Token.Split

/-!
# Scanning partitions a text

The tokens and unknown characters that scanning reports are, with the gaps between them, the whole
text: each token has the longest spelling at its place, an unknown character stands where no token
starts, and both know the line that they stand on. Conversely, the items of any partition of that kind
are those that scanning reports (`scan_eq_iff_partition`).
-/

set_option autoImplicit false

namespace Reckon

/-- A part of a text: a character of a gap, a token with its spelling, or an unknown character. -/
inductive Piece where
  | gap (c : Char)
  | token (spelling : List Char) (token : Located)
  | unknown (c : Char) (line : Nat)
deriving DecidableEq, Repr

namespace Piece

/-- The characters of a piece. -/
def text : Piece → List Char
  | gap c => [c]
  | token spelling _ => spelling
  | unknown c _ => [c]

/-- What scanning reports of a piece. -/
def item? : Piece → Option (Except SyntaxError Located)
  | gap _ => none
  | token _ t => some (.ok t)
  | unknown c line => some (.error (.unknownCharacter c line))

/-- The piece is what has to stand on the line in front of `rest`. -/
def Fits (line : Nat) (rest : List Char) : Piece → Prop
  | gap c => IsGap c
  | token spelling t => Takes (spelling ++ rest) spelling t.token rest ∧ t.line = line
  | unknown c l => ¬ IsGap c ∧ (∀ v t, v <+: c :: rest → ¬ Spells v t) ∧ l = line

end Piece

/-- The pieces make up a text that starts on the given line, they report the items, and each of them
fits where it stands. -/
structure Partitions (line : Nat) (text : List Char) (items : List (Except SyntaxError Located))
    (pieces : List Piece) : Prop where
  text_eq : pieces.flatMap Piece.text = text
  items_eq : pieces.filterMap Piece.item? = items
  fits : ∀ before p after, pieces = before ++ p :: after →
    p.Fits (line + (before.flatMap Piece.text).count '\n') (after.flatMap Piece.text)

namespace Partitions

variable {line : Nat} {rest : List Char} {items : List (Except SyntaxError Located)}
  {pieces : List Piece}

theorem nil (line : Nat) : Partitions line [] [] [] := ⟨rfl, rfl, by simp⟩

theorem cons {p : Piece} (hp : p.Fits line rest)
    (h : Partitions (line + p.text.count '\n') rest items pieces) :
    Partitions line (p.text ++ rest) (p.item?.toList ++ items) (p :: pieces) := by
  obtain ⟨rfl, rfl, hfits⟩ := h
  refine ⟨rfl, by cases p <;> rfl, ?_⟩
  intro before q after heq
  cases before with
  | nil =>
    obtain ⟨rfl, rfl⟩ := List.cons.inj heq
    exact hp
  | cons p' before =>
    rw [List.cons_append] at heq
    obtain ⟨rfl, rfl⟩ := List.cons.inj heq
    rw [List.flatMap_cons, List.count_append, ← Nat.add_assoc]
    exact hfits before q after rfl

theorem gap {c : Char} (hc : IsGap c)
    (h : Partitions (line + [c].count '\n') rest items pieces) :
    Partitions line (c :: rest) items (.gap c :: pieces) :=
  cons (p := .gap c) hc h

theorem token {v : List Char} {t : Token} (ht : Takes (v ++ rest) v t rest)
    (h : Partitions line rest items pieces) :
    Partitions line (v ++ rest) (.ok ⟨t, line⟩ :: items) (.token v ⟨t, line⟩ :: pieces) := by
  refine cons (p := .token v ⟨t, line⟩) ⟨ht, rfl⟩ ?_
  rw [Piece.text, List.count_eq_zero_of_not_mem ht.spells.unbroken]
  exact h

theorem unknown {c : Char} (hc : ¬ IsGap c) (hnone : ∀ v t, v <+: c :: rest → ¬ Spells v t)
    (h : Partitions line rest items pieces) :
    Partitions line (c :: rest) (.error (.unknownCharacter c line) :: items)
      (.unknown c line :: pieces) := by
  refine cons (p := .unknown c line) ⟨hc, hnone, rfl⟩ ?_
  obtain ⟨hn, -⟩ := not_isGap_iff.1 hc
  rw [Piece.text, List.count_eq_zero_of_not_mem (by simpa using hn.symm)]
  exact h

end Partitions

/-- A token with all its characters is one item. -/
theorem Spells.scanFrom {v rest : List Char} {t : Token} (h : Spells v t)
    (hread : Lexeme.read? (v ++ rest) = some ⟨t, v.length⟩) (line : Nat) :
    scanFrom line 0 (v ++ rest) = .ok ⟨t, line⟩ :: scanFrom line 0 rest := by
  obtain ⟨c, cs, rfl, hc⟩ := h.heads
  obtain ⟨hn, hb⟩ := not_isGap_iff.1 hc.not_isGap
  rw [List.cons_append] at hread ⊢
  rw [scanFrom_token hn hb hread, scanFrom_covered]
  simp

/-- By induction on the length of the text, piece by piece. -/
theorem exists_partition (line : Nat) (text : List Char) :
    ∃ pieces, Partitions line text (scanFrom line 0 text) pieces := by
  induction hlen : text.length using Nat.strongRecOn generalizing text line with
  | ind n ih =>
    cases text with
    | nil => exact ⟨[], .nil line⟩
    | cons c rest =>
      by_cases hc : IsGap c
      · obtain ⟨pieces, h⟩ := ih rest.length (by simp [← hlen]) (line + [c].count '\n') rest rfl
        rw [scanFrom_gap hc]
        exact ⟨_, h.gap hc⟩
      obtain ⟨hn, hb⟩ := not_isGap_iff.1 hc
      cases hx : Lexeme.read? (c :: rest) with
      | none =>
        obtain ⟨pieces, h⟩ := ih rest.length (by simp [← hlen]) line rest rfl
        rw [scanFrom_unknown hn hb hx]
        exact ⟨_, h.unknown hc (Lexeme.read?_eq_none_iff.1 hx)⟩
      | some x =>
        obtain ⟨v, rest', htakes, hv⟩ := Lexeme.read?_eq_some hx
        have htext := htakes.text_eq
        rw [htext] at hx htakes hlen ⊢
        -- a token has at least one character
        have hpos := List.length_pos_iff.2 htakes.spells.ne_nil
        rw [List.length_append] at hlen
        obtain ⟨pieces, h⟩ := ih rest'.length (by omega) line rest' rfl
        rw [htakes.spells.scanFrom (by rw [hx, hv])]
        exact ⟨_, h.token htakes⟩

theorem Partitions.tail {line : Nat} {p : Piece} {pieces : List Piece} {text : List Char}
    {items : List (Except SyntaxError Located)} (h : Partitions line text items (p :: pieces)) :
    Partitions (line + p.text.count '\n') (pieces.flatMap Piece.text)
      (pieces.filterMap Piece.item?) pieces := by
  refine ⟨rfl, rfl, ?_⟩
  rintro before q after rfl
  have hq := h.fits (p :: before) q after rfl
  rw [List.flatMap_cons, List.count_append, ← Nat.add_assoc] at hq
  exact hq

/-- By induction on the pieces: what fits at a place is what is read there. -/
theorem Partitions.scanFrom {line : Nat} {pieces : List Piece} {text : List Char}
    {items : List (Except SyntaxError Located)} (h : Partitions line text items pieces) :
    scanFrom line 0 text = items := by
  induction pieces generalizing line text items with
  | nil =>
    obtain ⟨rfl, rfl, -⟩ := h
    rfl
  | cons p pieces ih =>
    have hrest := ih h.tail
    have hp : p.Fits line (pieces.flatMap Piece.text) := h.fits [] p pieces rfl
    rw [← h.text_eq, ← h.items_eq, List.flatMap_cons]
    cases p with
    | gap c => exact (scanFrom_gap hp line _).trans hrest
    | token v t =>
      obtain ⟨htakes, rfl⟩ := hp
      rw [Piece.text, List.count_eq_zero_of_not_mem htakes.spells.unbroken] at hrest
      exact (htakes.spells.scanFrom htakes.read? _).trans (congrArg (_ :: ·) hrest)
    | unknown c l =>
      obtain ⟨hc, hnone, rfl⟩ := hp
      obtain ⟨hn, hb⟩ := not_isGap_iff.1 hc
      rw [Piece.text, List.count_eq_zero_of_not_mem (by simpa using hn.symm)] at hrest
      have hread := Lexeme.read?_eq_none_iff.2 hnone
      exact (scanFrom_unknown hn hb hread).trans (congrArg (_ :: ·) hrest)

/-- The items of a source text are those of its partition into gaps, tokens and unknown characters.
Without gap or overlap, an item at a place is the token with the longest spelling there, or the
character there if no token starts with it; its line is one more than the number of line breaks before
it. -/
theorem scan_eq_iff_partition (source : String) (items : List (Except SyntaxError Located)) :
    scan source = items ↔ ∃ pieces, Partitions 1 source.toList items pieces := by
  constructor
  · rintro rfl
    exact exists_partition 1 source.toList
  · rintro ⟨pieces, h⟩
    exact h.scanFrom

end Reckon
