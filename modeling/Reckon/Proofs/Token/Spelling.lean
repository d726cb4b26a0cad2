import Reckon.Token.Scan

/-!
# Spellings

`Spells v t`: the characters `v` are a way to write the token `t`. This is said without regard to
what may stand behind them, and without the scanner.

Among the beginnings of a text that spell a token the scanner takes the longest one
(`Lexeme.read?_eq_some`, `Spells.exists_read?`). Where nothing behind a spelling could go on with it,
that one is the longest (`Spells.read?_append`). A text therefore spells at most one token
(`Spells.unique`), and the longest spelling is what is read (`Takes.read?`).
-/

set_option autoImplicit false

namespace Reckon

/-- The characters that scanning passes over. -/
def IsGap (w : Char) : Prop := w = ' ' ∨ w = '\t' ∨ w = '\n'

instance (w : Char) : Decidable (IsGap w) := inferInstanceAs (Decidable (_ ∨ _ ∨ _))

theorem not_isGap_iff {w : Char} : ¬ IsGap w ↔ w ≠ '\n' ∧ ¬(w = ' ' ∨ w = '\t') := by
  rw [IsGap, ← or_assoc, not_or, and_comm]

/-- A run of digits. -/
structure Digits (v : List Char) : Prop where
  ne_nil : v ≠ []
  isDigit : ∀ c ∈ v, c.isDigit

/-- A run of letters, digits and underscores that does not start with a digit. -/
structure Word (v : List Char) : Prop where
  start : ∃ c ∈ v.head?, Lexeme.isWordStart c
  isWordPart : ∀ c ∈ v, Lexeme.isWordPart c

inductive Spells : List Char → Token → Prop
  | whole {ds : List Char} : Digits ds → Spells ds (.number (Decimal.ofParts ds []).toFloat)
  | decimal {ds fs : List Char} : Digits ds → Digits fs →
      Spells (ds ++ '.' :: fs) (.number (Decimal.ofParts ds fs).toFloat)
  | name {w : List Char} : Word w → w ≠ Mark.function.spelling.toList →
      w ≠ Mark.finish.spelling.toList → Spells w (.name (String.ofList w))
  | mark {m : Mark} : m ≠ .lineBreak → m ≠ .blank → Spells m.spelling.toList (.mark m)

namespace Token

def isNumber : Token → Bool
  | .number _ => true
  | _ => false

/-- Whether the token is written as a word. -/
def isWord : Token → Bool
  | .name _ | .mark .function | .mark .finish => true
  | _ => false

end Token

/-! ## First characters -/

namespace Lexeme

theorem isWordPart_eq (c : Char) : isWordPart c = (c.isDigit || isWordStart c) := by
  simp only [isWordPart, isWordStart, Char.isAlphanum]
  cases c.isAlpha <;> cases c.isDigit <;> simp

/-- The digits stand before all letters. -/
theorem not_isWordStart_of_isDigit {c : Char} (h : c.isDigit) : isWordStart c = false := by
  have hle : c.val ≤ '9'.val := by
    simp only [Char.isDigit, Bool.and_eq_true, decide_eq_true_eq] at h
    exact h.2
  have hupper : c.isUpper = false :=
    decide_eq_false fun hc => absurd (UInt32.le_trans hc.1 hle) (by decide)
  have hlower : c.isLower = false :=
    Bool.and_eq_false_iff.2 (.inl (decide_eq_false fun hc =>
      absurd (UInt32.le_trans hc hle) (by decide)))
  have hbar : decide (c = '_') = false := by
    refine decide_eq_false fun hc => ?_
    subst hc
    exact absurd hle (by decide)
  show (c.isUpper || c.isLower || decide (c = '_')) = false
  rw [hupper, hlower, hbar]
  rfl

end Lexeme

/-- What the first character of a spelling tells about the token. -/
structure Heads (c : Char) (cs : List Char) (t : Token) : Prop where
  isDigit : c.isDigit = t.isNumber
  isWordStart : Lexeme.isWordStart c = t.isWord
  not_isGap : ¬ IsGap c
  ne_greater : c ≠ '>'
  dot : c = '.' → cs = [] ∧ t = .mark .dot

theorem heads_number {c : Char} (hc : c.isDigit) (cs : List Char) (x : Float) :
    Heads c cs (.number x) := by
  refine ⟨hc, Lexeme.not_isWordStart_of_isDigit hc, ?_, ?_, ?_⟩
  · rintro (rfl | rfl | rfl) <;> exact absurd hc (by decide)
  · rintro rfl
    exact absurd hc (by decide)
  · rintro rfl
    exact absurd hc (by decide)

theorem heads_name {c : Char} (hc : Lexeme.isWordStart c) (cs : List Char) (x : String) :
    Heads c cs (.name x) := by
  refine ⟨Bool.eq_false_iff.2 fun hd => ?_, hc, ?_, ?_, ?_⟩
  · rw [Lexeme.not_isWordStart_of_isDigit hd] at hc
    cases hc
  · rintro (rfl | rfl | rfl) <;> exact absurd hc (by decide)
  · rintro rfl
    exact absurd hc (by decide)
  · rintro rfl
    exact absurd hc (by decide)

theorem Spells.heads {v : List Char} {t : Token} (h : Spells v t) :
    ∃ c cs, v = c :: cs ∧ Heads c cs t := by
  cases h with
  | whole hd =>
    obtain ⟨c, cs, rfl⟩ := List.exists_cons_of_ne_nil hd.ne_nil
    exact ⟨c, cs, rfl, heads_number (hd.isDigit c List.mem_cons_self) cs _⟩
  | decimal hd hf =>
    obtain ⟨c, cs, rfl⟩ := List.exists_cons_of_ne_nil hd.ne_nil
    exact ⟨c, _, rfl, heads_number (hd.isDigit c List.mem_cons_self) _ _⟩
  | name hw _ _ =>
    obtain ⟨c, hc, hstart⟩ := hw.start
    obtain ⟨cs, rfl⟩ := List.head?_eq_some_iff.1 hc
    exact ⟨c, cs, rfl, heads_name hstart cs _⟩
  | @mark m hl hb =>
    cases m with
    | lineBreak => exact absurd rfl hl
    | blank => exact absurd rfl hb
    | _ => exact ⟨_, _, rfl, by decide, by decide, by decide, by decide, by decide⟩

/-- A token stands on one line. -/
theorem Spells.unbroken {v : List Char} {t : Token} (h : Spells v t) : '\n' ∉ v := by
  have hdigit : ∀ {ds}, Digits ds → '\n' ∉ ds := fun hd hmem =>
    absurd (hd.isDigit _ hmem) (by decide)
  cases h with
  | whole hd => exact hdigit hd
  | decimal hd hf =>
    simp only [List.mem_append, List.mem_cons, not_or]
    exact ⟨hdigit hd, by decide, hdigit hf⟩
  | name hw _ _ => exact fun hmem => absurd (hw.isWordPart _ hmem) (by decide)
  | @mark m hl hb =>
    cases m with
    | lineBreak => exact absurd rfl hl
    | _ => decide

theorem Spells.ne_nil {v : List Char} {t : Token} (h : Spells v t) : v ≠ [] := by
  obtain ⟨c, cs, rfl, -⟩ := h.heads
  exact List.cons_ne_nil c cs

/-! ## Reading finds spellings -/

section
variable {α : Type} {p : α → Bool}

theorem takeWhile_append_cons {w : α} (hw : p w = false) (l b : List α) :
    (l ++ w :: b).takeWhile p = l.takeWhile p := by
  rw [List.takeWhile_append, List.takeWhile_cons_of_neg (by simp [hw])]
  split
  · next h => rw [List.append_nil, (List.takeWhile_sublist p).eq_of_length h]
  · rfl

theorem dropWhile_append_cons {w : α} (hw : p w = false) (l b : List α) :
    (l ++ w :: b).dropWhile p = l.dropWhile p ++ w :: b := by
  rw [List.dropWhile_append, List.dropWhile_cons_of_neg (by simp [hw])]
  split
  · next h => rw [List.isEmpty_iff.1 h, List.nil_append]
  · rfl

/-- A run goes on up to the first character outside. -/
theorem takeWhile_run {l rest : List α} (hl : ∀ a ∈ l, p a) (hrest : ∀ a ∈ rest.head?, p a = false) :
    (l ++ rest).takeWhile p = l := by
  rw [List.takeWhile_append_of_pos hl]
  cases rest with
  | nil => simp
  | cons a rest => rw [List.takeWhile_cons_of_neg (by simp [hrest a rfl]), List.append_nil]

theorem dropWhile_run {l rest : List α} (hl : ∀ a ∈ l, p a) (hrest : ∀ a ∈ rest.head?, p a = false) :
    (l ++ rest).dropWhile p = rest := by
  rw [List.dropWhile_append_of_pos hl]
  cases rest with
  | nil => rfl
  | cons a rest => rw [List.dropWhile_cons_of_neg (by simp [hrest a rfl])]

theorem forall_mem_takeWhile (l : List α) : ∀ a ∈ l.takeWhile p, p a :=
  List.all_eq_true.1 List.all_takeWhile

end

theorem Lexeme.ofWord_of_ne {w : List Char} (hf : w ≠ Mark.function.spelling.toList)
    (he : w ≠ Mark.finish.spelling.toList) : ofWord w = .name (String.ofList w) := by
  have hf' : String.ofList w ≠ Mark.function.spelling := fun h =>
    hf (by rw [← h, String.toList_ofList])
  have he' : String.ofList w ≠ Mark.finish.spelling := fun h =>
    he (by rw [← h, String.toList_ofList])
  simp only [ofWord, hf', he', ↓reduceIte]

theorem Word.spells {v : List Char} (h : Word v) : Spells v (Lexeme.ofWord v) := by
  by_cases hf : v = Mark.function.spelling.toList
  · subst hf
    exact .mark (by decide) (by decide)
  by_cases he : v = Mark.finish.spelling.toList
  · subst he
    exact .mark (by decide) (by decide)
  · rw [Lexeme.ofWord_of_ne hf he]
    exact .name h hf he

namespace Lexeme

theorem fraction_cases (l : List Char) :
    fraction l = [] ∨ ∃ r, l = '.' :: r ∧ fraction l = r.takeWhile Char.isDigit := by
  unfold fraction
  split
  · exact .inr ⟨_, rfl, rfl⟩
  · exact .inl rfl

/-- The text starts with a spelling of the token, of the given length. -/
def Spelled (text : List Char) (x : Lexeme) : Prop :=
  ∃ v rest, text = v ++ rest ∧ v.length = x.length ∧ Spells v x.token

theorem numeral_spelled {c : Char} (hc : c.isDigit) (l : List Char) :
    Spelled (c :: l) (numeral (c :: l)) := by
  have hsplit := (List.takeWhile_append_dropWhile (p := Char.isDigit) (l := c :: l)).symm
  have hdigits : Digits ((c :: l).takeWhile Char.isDigit) :=
    ⟨by simp [hc], forall_mem_takeWhile _⟩
  unfold numeral
  rcases fraction_cases ((c :: l).dropWhile Char.isDigit) with hf | ⟨r, hr, hf⟩
  · exact ⟨_, _, hsplit, by simp [hf], by simpa [hf] using .whole hdigits⟩
  · by_cases hempty : r.takeWhile Char.isDigit = []
    -- a point counts only with a digit behind it
    · rw [hempty] at hf
      exact ⟨_, _, hsplit, by simp [hf], by simpa [hf] using .whole hdigits⟩
    · refine ⟨(c :: l).takeWhile Char.isDigit ++ '.' :: r.takeWhile Char.isDigit,
        r.dropWhile Char.isDigit, ?_, ?_, ?_⟩
      · rw [List.append_assoc, List.cons_append, List.takeWhile_append_dropWhile, ← hr]
        exact hsplit
      · simp [hf, hempty]
      · simp only [hf]
        exact .decimal hdigits ⟨hempty, forall_mem_takeWhile _⟩

theorem word_spelled {c : Char} (hc : isWordStart c) (l : List Char) :
    Spelled (c :: l) (word (c :: l)) := by
  have hpart : isWordPart c := by simp [isWordPart_eq, hc]
  have hword : Word ((c :: l).takeWhile isWordPart) :=
    ⟨⟨c, by simp [hpart], hc⟩, forall_mem_takeWhile _⟩
  exact ⟨_, _, List.takeWhile_append_dropWhile.symm, rfl, hword.spells⟩

theorem sign?_spelled {text : List Char} {x : Lexeme} (h : sign? text = some x) :
    Spelled text x := by
  unfold sign? at h
  split at h
  all_goals cases h
  all_goals exact ⟨_, _, rfl, rfl, .mark (by decide) (by decide)⟩

theorem read?_spelled {text : List Char} {x : Lexeme} (h : read? text = some x) :
    Spelled text x := by
  cases text with
  | nil => cases h
  | cons c l =>
    simp only [read?] at h
    split at h
    · next hc =>
      cases h
      exact numeral_spelled hc l
    · split at h
      · next hc =>
        cases h
        exact word_spelled hc l
      · exact sign?_spelled h

end Lexeme

/-! ## Reading finds the longest spelling -/

section
variable {v : List Char} (rest : List Char)

theorem Digits.read? (h : Digits v) :
    Lexeme.read? (v ++ rest) = some (Lexeme.numeral (v ++ rest)) := by
  obtain ⟨c, cs, rfl⟩ := List.exists_cons_of_ne_nil h.ne_nil
  rw [List.cons_append, Lexeme.read?, if_pos (h.isDigit c List.mem_cons_self)]

theorem Word.read? (h : Word v) : Lexeme.read? (v ++ rest) = some (Lexeme.word (v ++ rest)) := by
  obtain ⟨c, hc, hstart⟩ := h.start
  obtain ⟨cs, rfl⟩ := List.head?_eq_some_iff.1 hc
  have hdigit : ¬ c.isDigit := fun hd => by
    rw [Lexeme.not_isWordStart_of_isDigit hd] at hstart
    cases hstart
  rw [List.cons_append, Lexeme.read?, if_neg hdigit, if_pos hstart]

theorem word_function : Word Mark.function.spelling.toList :=
  ⟨⟨'f', rfl, by decide⟩, List.all_eq_true.1 (by decide)⟩

theorem word_finish : Word Mark.finish.spelling.toList :=
  ⟨⟨'e', rfl, by decide⟩, List.all_eq_true.1 (by decide)⟩

theorem Word.length_le (h : Word v) : v.length ≤ (Lexeme.word (v ++ rest)).length := by
  rw [Lexeme.word, List.takeWhile_append_of_pos h.isWordPart]
  simp

theorem Digits.read?_decimal {fs : List Char} (hv : Digits v) (hf : Digits fs) :
    Lexeme.read? (v ++ '.' :: fs ++ rest) =
      some ⟨.number (Decimal.ofParts v (fs ++ rest.takeWhile Char.isDigit)).toFloat,
        v.length + ((fs ++ rest.takeWhile Char.isDigit).length + 1)⟩ := by
  have hpoint : ∀ c ∈ ('.' :: (fs ++ rest)).head?, c.isDigit = false := by
    simp only [List.head?_cons, Option.mem_some_iff, forall_eq']
    decide
  have hfraction : Lexeme.fraction ('.' :: (fs ++ rest)) = fs ++ rest.takeWhile Char.isDigit :=
    List.takeWhile_append_of_pos hf.isDigit
  rw [List.append_assoc, List.cons_append, hv.read?, Lexeme.numeral,
    takeWhile_run hv.isDigit hpoint, dropWhile_run hv.isDigit hpoint, hfraction]
  simp [hf.ne_nil]

theorem Lexeme.sign?_minus {l : List Char} (h : l.head? ≠ some '>') :
    sign? ('-' :: l) = some ⟨.mark .minus, 1⟩ := by
  cases l with
  | nil => rfl
  | cons d l =>
    have hd : d ≠ '>' := fun he => h (by rw [he]; rfl)
    unfold sign?
    split <;> simp_all

/-- No beginning of a text that spells a token is longer than what is read. -/
theorem Spells.exists_read? {t : Token} (h : Spells v t) :
    ∃ x, Lexeme.read? (v ++ rest) = some x ∧ v.length ≤ x.length := by
  cases h with
  | whole hd =>
    refine ⟨_, hd.read? rest, ?_⟩
    rw [Lexeme.numeral, List.takeWhile_append_of_pos hd.isDigit]
    simp only [List.length_append]
    omega
  | decimal hd hf =>
    refine ⟨_, hd.read?_decimal rest hf, ?_⟩
    simp only [List.length_append, List.length_cons]
    omega
  | name hw _ _ => exact ⟨_, hw.read? rest, hw.length_le rest⟩
  | @mark m hl hb =>
    cases m with
    | lineBreak => exact absurd rfl hl
    | blank => exact absurd rfl hb
    | function => exact ⟨_, word_function.read? rest, word_function.length_le rest⟩
    | finish => exact ⟨_, word_finish.read? rest, word_finish.length_le rest⟩
    | minus =>
      by_cases hr : rest.head? = some '>'
      · obtain ⟨rest, rfl⟩ := List.head?_eq_some_iff.1 hr
        exact ⟨⟨.mark .arrow, 2⟩, rfl, by decide⟩
      · exact ⟨_, Lexeme.sign?_minus hr, Nat.le_refl _⟩
    | _ => exact ⟨_, rfl, Nat.le_refl _⟩

end

/-- Nothing that stands behind the spelling `v` of a token goes on with it. -/
structure Parted (v : List Char) (t : Token) (rest : List Char) : Prop where
  digit : t.isNumber → ∀ c ∈ rest.head?, c.isDigit = false
  point : t.isNumber → '.' ∉ v → Lexeme.fraction rest = []
  word : t.isWord → ∀ c ∈ rest.head?, Lexeme.isWordPart c = false
  arrow : t = .mark .minus → rest.head? ≠ some '>'

theorem Word.read?_of_parted {v rest : List Char} (h : Word v)
    (hrest : ∀ c ∈ rest.head?, Lexeme.isWordPart c = false) :
    Lexeme.read? (v ++ rest) = some ⟨Lexeme.ofWord v, v.length⟩ := by
  rw [h.read?, Lexeme.word, takeWhile_run h.isWordPart hrest]

theorem Spells.read?_append {v rest : List Char} {t : Token} (h : Spells v t)
    (hrest : Parted v t rest) : Lexeme.read? (v ++ rest) = some ⟨t, v.length⟩ := by
  cases h with
  | whole hd =>
    have hpoint : '.' ∉ v := fun hmem => absurd (hd.isDigit _ hmem) (by decide)
    rw [hd.read?, Lexeme.numeral, takeWhile_run hd.isDigit (hrest.digit rfl),
      dropWhile_run hd.isDigit (hrest.digit rfl), hrest.point rfl hpoint]
    rfl
  | decimal hd hf =>
    have hnone : rest.takeWhile Char.isDigit = [] := takeWhile_run (l := []) (by simp) (hrest.digit rfl)
    rw [hd.read?_decimal rest hf, hnone, List.append_nil, List.length_append, List.length_cons]
  | name hw hf he =>
    rw [hw.read?_of_parted (hrest.word rfl), Lexeme.ofWord_of_ne hf he]
  | @mark m hl hb =>
    cases m with
    | lineBreak => exact absurd rfl hl
    | blank => exact absurd rfl hb
    | function => exact word_function.read?_of_parted (hrest.word rfl)
    | finish => exact word_finish.read?_of_parted (hrest.word rfl)
    | minus => exact Lexeme.sign?_minus (hrest.arrow rfl)
    | _ => rfl

theorem Spells.unique {v : List Char} {t t' : Token} (h : Spells v t) (h' : Spells v t') :
    t = t' := by
  have hend : ∀ t, Parted v t [] := fun t => ⟨by simp, fun _ _ => rfl, by simp, by simp⟩
  have hread := (h.read?_append (hend t)).symm.trans (h'.read?_append (hend t'))
  cases hread
  rfl

/-- The spelling `v` of a token stands at the start of the text, `rest` behind it, and no longer
spelling stands there. -/
structure Takes (text v : List Char) (t : Token) (rest : List Char) : Prop where
  spells : Spells v t
  text_eq : text = v ++ rest
  longest : ∀ v' t', v' <+: text → Spells v' t' → v'.length ≤ v.length

namespace Lexeme

variable {text : List Char}

theorem read?_eq_some {x : Lexeme} (h : read? text = some x) :
    ∃ v rest, Takes text v x.token rest ∧ v.length = x.length := by
  obtain ⟨v, rest, rfl, hlen, hspells⟩ := read?_spelled h
  refine ⟨v, rest, ⟨hspells, rfl, ?_⟩, hlen⟩
  rintro v' t' ⟨rest', htext⟩ hspells'
  obtain ⟨x', hx', hle⟩ := hspells'.exists_read? rest'
  rw [htext, h] at hx'
  cases hx'
  omega

theorem read?_eq_none_iff :
    read? text = none ↔ ∀ v t, v <+: text → ¬ Spells v t := by
  constructor
  · rintro h v t ⟨rest, rfl⟩ hspells
    obtain ⟨x, hx, -⟩ := hspells.exists_read? rest
    rw [h] at hx
    cases hx
  · intro h
    cases hx : read? text with
    | none => rfl
    | some x =>
      obtain ⟨v, rest, htakes, -⟩ := read?_eq_some hx
      exact absurd htakes.spells (h v x.token ⟨rest, htakes.text_eq.symm⟩)

end Lexeme

theorem Takes.read? {text v rest : List Char} {t : Token} (h : Takes text v t rest) :
    Lexeme.read? text = some ⟨t, v.length⟩ := by
  obtain ⟨x, hx, hle⟩ := h.spells.exists_read? rest
  rw [← h.text_eq] at hx
  obtain ⟨v', rest', h', hlen⟩ := Lexeme.read?_eq_some hx
  have hle' := h.longest v' x.token ⟨rest', h'.text_eq.symm⟩ h'.spells
  -- both are beginnings of the text, of the same length
  obtain ⟨rfl, -⟩ := List.append_inj (h.text_eq.symm.trans h'.text_eq) (by omega)
  rw [hx, h.spells.unique h'.spells, hlen]

end Reckon
