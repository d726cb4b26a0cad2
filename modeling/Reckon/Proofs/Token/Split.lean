import Reckon.Proofs.Lines
import Reckon.Proofs.Token.Spelling

/-!
# Texts that scanning takes apart

A character that no token goes on with takes a text apart: what stands before it is scanned as if it
stood alone, and what follows as if it started on a later line (`scanFrom_append`,
`scanFrom_add`). Both come from what one token takes: its characters are on one line
(`Lexeme.read?_covered`), and they are chosen without a look beyond such a character
(`Lexeme.read?_append`). The gaps are of that kind, and so are the characters that start no token, but
for the second half of an arrow (`scan_separated`).
-/

set_option autoImplicit false

namespace Reckon

/-- Neither a word nor a number nor an arrow goes on with the character. -/
def Separates (w : Char) : Prop := Lexeme.isWordPart w = false ∧ w ≠ '.' ∧ w ≠ '>'

instance (w : Char) : Decidable (Separates w) := inferInstanceAs (Decidable (_ ∧ _ ∧ _))

namespace Lexeme

/-- A sign is told by its first character, and by whether the second one makes an arrow of it. -/
theorem sign?_congr (c : Char) {l l' : List Char} (h : l.head? = some '>' ↔ l'.head? = some '>') :
    sign? (c :: l) = sign? (c :: l') := by
  by_cases hc : c = '-'
  · subst hc
    by_cases hl : l.head? = some '>'
    · obtain ⟨m, rfl⟩ := List.head?_eq_some_iff.1 hl
      obtain ⟨m', rfl⟩ := List.head?_eq_some_iff.1 (h.1 hl)
      rfl
    · rw [sign?_minus hl, sign?_minus (fun h' => hl (h.2 h'))]
  · unfold sign?
    split <;> simp_all

section
variable {w : Char} (hw : Separates w)
include hw

theorem isDigit_of_separates : w.isDigit = false := by
  have h := hw.1
  simp only [isWordPart, Char.isAlphanum, Bool.or_eq_false_iff] at h
  exact h.1.2

theorem fraction_append (l b : List Char) : fraction (l ++ w :: b) = fraction l := by
  cases l with
  | nil => simp [fraction, hw.2.1]
  | cons c l =>
    by_cases hc : c = '.'
    · subst hc
      exact takeWhile_append_cons (isDigit_of_separates hw) l b
    · simp [fraction, hc]

theorem numeral_append (l b : List Char) : numeral (l ++ w :: b) = numeral l := by
  have hd := isDigit_of_separates hw
  unfold numeral
  rw [takeWhile_append_cons hd, dropWhile_append_cons hd, fraction_append hw]

theorem word_append (l b : List Char) : word (l ++ w :: b) = word l := by
  unfold word
  rw [takeWhile_append_cons hw.1]

theorem sign?_append (c : Char) (l b : List Char) :
    sign? (c :: (l ++ w :: b)) = sign? (c :: l) := by
  refine sign?_congr c ?_
  cases l with
  | nil => simp [hw.2.2]
  | cons d l => rfl

theorem read?_append (c : Char) (l b : List Char) :
    read? (c :: (l ++ w :: b)) = read? (c :: l) := by
  have hnumeral := numeral_append hw (c :: l) b
  have hword := word_append hw (c :: l) b
  simp only [List.cons_append] at hnumeral hword
  simp only [read?, hnumeral, hword, sign?_append hw]

end

/-- What a token covers behind its first character. -/
theorem read?_covered {c : Char} {l : List Char} {x : Lexeme} (h : read? (c :: l) = some x) :
    x.length - 1 ≤ l.length ∧ '\n' ∉ l.take (x.length - 1) := by
  obtain ⟨v, rest, hv, hlen, hspells⟩ := read?_spelled h
  cases v with
  | nil => exact absurd rfl hspells.ne_nil
  | cons d v =>
    rw [List.cons_append] at hv
    obtain ⟨rfl, rfl⟩ := List.cons.inj hv
    rw [← hlen, List.length_cons, Nat.add_sub_cancel, List.take_left' rfl]
    exact ⟨by simp, fun h => hspells.unbroken (List.mem_cons_of_mem _ h)⟩

end Lexeme

/-! ## Scanning -/

section
variable {line : Nat} {c : Char} {rest : List Char}

theorem scanFrom_break : scanFrom line 0 ('\n' :: rest) = scanFrom (line + 1) 0 rest := rfl

theorem scanFrom_blank (hc : c = ' ' ∨ c = '\t') :
    scanFrom line 0 (c :: rest) = scanFrom line 0 rest := by
  rcases hc with rfl | rfl <;> rfl

theorem scanFrom_token (hn : c ≠ '\n') (hb : ¬(c = ' ' ∨ c = '\t')) {x : Lexeme}
    (hx : Lexeme.read? (c :: rest) = some x) :
    scanFrom line 0 (c :: rest) = .ok ⟨x.token, line⟩ :: scanFrom line (x.length - 1) rest := by
  rw [scanFrom, if_neg hn, if_neg hb, hx]

theorem scanFrom_unknown (hn : c ≠ '\n') (hb : ¬(c = ' ' ∨ c = '\t'))
    (hx : Lexeme.read? (c :: rest) = none) :
    scanFrom line 0 (c :: rest) = .error (.unknownCharacter c line) :: scanFrom line 0 rest := by
  rw [scanFrom, if_neg hn, if_neg hb, hx]

end

/-- By induction on the text before the separator, of which the first `covered` characters belong to
a token already read. -/
theorem scanFrom_append {w : Char} (hw : Separates w) (a b : List Char) (line : Nat) {covered : Nat}
    (hc : covered ≤ a.length) (hbreak : '\n' ∉ a.take covered) :
    scanFrom line covered (a ++ w :: b) =
      scanFrom line covered a ++ scanFrom (line + a.count '\n') 0 (w :: b) := by
  induction a generalizing line covered with
  | nil =>
    obtain rfl : covered = 0 := by simpa using hc
    rfl
  | cons c a ih =>
    cases covered with
    | succ covered =>
      simp only [List.take_succ_cons, List.mem_cons, not_or] at hbreak
      rw [List.count_cons_of_ne (Ne.symm hbreak.1)]
      exact ih line (by simpa using hc) hbreak.2
    | zero =>
      have hstart := fun line => @ih line 0 (Nat.zero_le _) (by simp)
      rw [List.cons_append]
      by_cases hn : c = '\n'
      · subst hn
        rw [scanFrom_break, scanFrom_break, hstart, List.count_cons_self, Nat.add_assoc,
          Nat.add_comm 1]
      · rw [List.count_cons_of_ne hn]
        by_cases hb : c = ' ' ∨ c = '\t'
        · rw [scanFrom_blank hb, scanFrom_blank hb, hstart]
        · have happ := Lexeme.read?_append hw c a b
          cases hx : Lexeme.read? (c :: a) with
          | none =>
            rw [scanFrom_unknown hn hb hx, scanFrom_unknown hn hb (happ.trans hx), hstart]
            rfl
          | some x =>
            rw [scanFrom_token hn hb hx, scanFrom_token hn hb (happ.trans hx)]
            -- the token ends before the separator, and its characters count no lines
            obtain ⟨hlen, hline⟩ := Lexeme.read?_covered hx
            rw [ih line hlen hline]
            rfl

/-- Lines are counted from the line of the first character. -/
theorem scanFrom_add (line k covered : Nat) (text : List Char) :
    scanFrom (line + k) covered text =
      (scanFrom line covered text).map (moved (· + k) (Located.mapLines (· + k))) := by
  induction text generalizing line covered with
  | nil => rfl
  | cons c text ih =>
    cases covered with
    | succ covered => exact ih line covered
    | zero =>
      by_cases hn : c = '\n'
      · subst hn
        rw [scanFrom_break, scanFrom_break, ← ih, Nat.add_right_comm]
      · by_cases hb : c = ' ' ∨ c = '\t'
        · rw [scanFrom_blank hb, scanFrom_blank hb, ih]
        · cases hx : Lexeme.read? (c :: text) with
          | none =>
            rw [scanFrom_unknown hn hb hx, scanFrom_unknown hn hb hx, ih]
            rfl
          | some x =>
            rw [scanFrom_token hn hb hx, scanFrom_token hn hb hx, ih]
            rfl

theorem mapM_map_moved {α β : Type} (f : Nat → Nat) (g : α → β)
    (items : List (Except SyntaxError α)) :
    (items.map (moved f g)).mapM id = moved f (List.map g) (items.mapM id) := by
  induction items with
  | nil => rfl
  | cons item items ih =>
    rw [List.map_cons, List.mapM_cons, List.mapM_cons, ih]
    cases item with
    | error e => rfl
    | ok a => cases items.mapM id <;> rfl

theorem IsGap.separates {w : Char} (hw : IsGap w) : Separates w := by
  rcases hw with rfl | rfl | rfl <;> decide

theorem scanFrom_gap {w : Char} (hw : IsGap w) (line : Nat) (rest : List Char) :
    scanFrom line 0 (w :: rest) = scanFrom (line + [w].count '\n') 0 rest := by
  rcases hw with rfl | rfl | rfl <;> rfl

/-- No token is spelled with the character in front. -/
def StartsNone (w : Char) : Prop := ∀ v t, v.head? = some w → ¬ Spells v t

theorem startsNone_iff {w : Char} : StartsNone w ↔ ∀ rest, Lexeme.read? (w :: rest) = none := by
  constructor
  · intro h rest
    refine Lexeme.read?_eq_none_iff.2 fun v t hv hspells => ?_
    obtain ⟨c, cs, rfl, -⟩ := hspells.heads
    obtain ⟨rfl, -⟩ := List.cons_prefix_cons.1 hv
    exact h _ t rfl hspells
  · intro h v t hv hspells
    obtain ⟨cs, rfl⟩ := List.head?_eq_some_iff.1 hv
    exact Lexeme.read?_eq_none_iff.1 (h cs) (w :: cs) t (List.prefix_refl _) hspells

theorem StartsNone.separates {w : Char} (h : StartsNone w) (hgreater : w ≠ '>') :
    Separates w := by
  refine ⟨?_, ?_, hgreater⟩
  · have hdigit : w.isDigit = false := Bool.eq_false_iff.2 fun hd =>
      h [w] _ rfl (.whole ⟨by simp, by simpa using hd⟩)
    have hstart : Lexeme.isWordStart w = false := Bool.eq_false_iff.2 fun hs =>
      h [w] _ rfl (Word.spells ⟨⟨w, rfl, hs⟩, by simp [Lexeme.isWordPart_eq, hs]⟩)
    rw [Lexeme.isWordPart_eq, hdigit, hstart]
    rfl
  · rintro rfl
    exact h ['.'] _ rfl (.mark (m := .dot) (by decide) (by decide))

section
variable {a b text : String} {w : Char} (ht : text.toList = a.toList ++ w :: b.toList)
include ht

/-- What stands before a separator is scanned as if it stood alone. -/
theorem scan_of_separates (hw : Separates w) :
    scan text = scan a ++ scanFrom (1 + a.toList.count '\n') 0 (w :: b.toList) := by
  unfold scan
  rw [ht, scanFrom_append hw a.toList b.toList 1 (Nat.zero_le _) (by simp)]

end

section
variable {a b text : String} {w : Char} (hw : IsGap w)
  (ht : text.toList = a.toList ++ w :: b.toList)
include hw ht

theorem scan_join : scan text = scan a ++ (scan b).map
    (moved (· + (a.toList ++ [w]).count '\n')
      (Located.mapLines (· + (a.toList ++ [w]).count '\n'))) := by
  rw [scan_of_separates ht hw.separates, scanFrom_gap hw, Nat.add_assoc, ← List.count_append,
    scanFrom_add]
  rfl

theorem tokenize_join {ts : List Located} (ha : tokenize a = .ok ts) :
    tokenize text = moved (· + (a.toList ++ [w]).count '\n')
      (fun more => ts ++ more.map (Located.mapLines (· + (a.toList ++ [w]).count '\n')))
      (tokenize b) := by
  unfold tokenize at ha ⊢
  rw [scan_join hw ht, List.mapM_append, ha, mapM_map_moved]
  cases (scan b).mapM id <;> rfl

end

/-- A gap, or a character that starts no token and ends no arrow, takes a text apart. The items are
those of the text before it, then its own error if it is no gap, and then those of the text behind it,
on lines raised by the line breaks up to there. -/
theorem scan_separated (a b : String) {w : Char} (hw : IsGap w ∨ StartsNone w ∧ w ≠ '>') :
    scan (a ++ String.singleton w ++ b) = scan a ++
      (if IsGap w then [] else [.error (.unknownCharacter w (1 + a.toList.count '\n'))]) ++
      (scan b).map (moved (· + (a.toList ++ [w]).count '\n')
        (Located.mapLines (· + (a.toList ++ [w]).count '\n'))) := by
  have ht : (a ++ String.singleton w ++ b).toList = a.toList ++ w :: b.toList := by simp
  by_cases hgap : IsGap w
  · rw [if_pos hgap, List.append_nil]
    exact scan_join hgap ht
  · obtain ⟨hstarts, hgreater⟩ := hw.resolve_left hgap
    obtain ⟨hn, hb⟩ := not_isGap_iff.1 hgap
    have hcount : (a.toList ++ [w]).count '\n' = a.toList.count '\n' := by
      rw [List.count_append, List.count_cons_of_ne hn, List.count_nil, Nat.add_zero]
    rw [if_neg hgap, scan_of_separates ht (hstarts.separates hgreater),
      scanFrom_unknown hn hb (startsNone_iff.1 hstarts _), scanFrom_add, hcount, List.append_assoc]
    rfl

/-- The minus before the separator and the character behind it make no arrow. -/
theorem scan_separated_arrow :
    scan ("fu\n-" ++ String.singleton '#' ++ ">n") =
      [.ok ⟨.name "fu", 1⟩, .ok ⟨.mark .minus, 2⟩, .error (.unknownCharacter '#' 2),
        .error (.unknownCharacter '>' 2), .ok ⟨.name "n", 2⟩] := by
  have hnone : StartsNone '#' := startsNone_iff.2 fun _ => rfl
  exact (scan_separated "fu\n-" ">n" (.inr ⟨hnone, by decide⟩)).trans rfl

/-- A text without unknown characters has the tokens that scanning finds. -/
theorem tokenize_of_scan {source : String} {ts : List Located} (h : scan source = ts.map .ok) :
    tokenize source = .ok ts := by
  rw [tokenize, h, List.mapM_map]
  exact (List.mapM_pure (f := id)).trans (congrArg Except.ok (List.map_id ts))

theorem scan_of_tokenize {source : String} {ts : List Located} (h : tokenize source = .ok ts) :
    scan source = ts.map .ok := by
  unfold tokenize at h
  generalize scan source = items at h
  induction items generalizing ts with
  | nil =>
    cases h
    rfl
  | cons item items ih =>
    rw [List.mapM_cons] at h
    cases item with
    | error e => cases h
    | ok t =>
      cases hs : items.mapM id with
      | error e =>
        rw [hs] at h
        cases h
      | ok ts' =>
        rw [hs] at h
        cases h
        rw [ih hs, List.map_cons]

/-- The tokens of a source text, whether or not it has unknown characters as well. -/
def tokensOf (source : String) : List Located := (scan source).filterMap Except.toOption

theorem tokensOf_of_tokenize {source : String} {ts : List Located}
    (h : tokenize source = .ok ts) : tokensOf source = ts := by
  rw [tokensOf, scan_of_tokenize h, List.filterMap_map]
  exact List.filterMap_some

theorem mem_of_mapM_eq_error {α : Type} {e : SyntaxError} {items : List (Except SyntaxError α)}
    (h : items.mapM id = .error e) : .error e ∈ items := by
  induction items with
  | nil => cases h
  | cons item items ih =>
    rw [List.mapM_cons] at h
    cases item with
    | error e' =>
      cases h
      exact List.mem_cons_self
    | ok t =>
      cases hs : items.mapM id with
      | ok ts =>
        rw [hs] at h
        cases h
      | error e' =>
        rw [hs] at h
        cases h
        exact List.mem_cons_of_mem _ (ih hs)

theorem unknown_of_mem_scanFrom {e : SyntaxError} {line covered : Nat} {text : List Char}
    (h : .error e ∈ scanFrom line covered text) : ∃ c l, e = .unknownCharacter c l := by
  induction text generalizing line covered with
  | nil => cases h
  | cons c text ih =>
    cases covered with
    | succ covered => exact ih h
    | zero =>
      by_cases hn : c = '\n'
      · subst hn
        exact ih h
      by_cases hb : c = ' ' ∨ c = '\t'
      · rw [scanFrom_blank hb] at h
        exact ih h
      cases hx : Lexeme.read? (c :: text) with
      | none =>
        rw [scanFrom_unknown hn hb hx] at h
        rcases List.mem_cons.1 h with he | h
        · cases he
          exact ⟨c, line, rfl⟩
        · exact ih h
      | some x =>
        rw [scanFrom_token hn hb hx] at h
        rcases List.mem_cons.1 h with he | h
        · cases he
        · exact ih h

/-- Scanning fails for unknown characters only. -/
theorem unknown_of_tokenize {source : String} {e : SyntaxError}
    (h : tokenize source = .error e) : ∃ c l, e = .unknownCharacter c l := by
  exact unknown_of_mem_scanFrom (mem_of_mapM_eq_error h)

theorem tokenize_ne_nil {b : String} (hb : scan b ≠ []) {ts : List Located}
    (h : tokenize b = .ok ts) : ts ≠ [] := by
  unfold tokenize at h
  obtain ⟨item, items, hitems⟩ := List.exists_cons_of_ne_nil hb
  rw [hitems, List.mapM_cons] at h
  cases item with
  | error e => cases h
  | ok t =>
    cases hs : items.mapM id with
    | error e => rw [hs] at h; cases h
    | ok ts' =>
      rw [hs] at h
      cases h
      simp

end Reckon
