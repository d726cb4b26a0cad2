import Mathlib.Data.List.TakeWhile
import Reckon.Dialogue
import Reckon.Proofs.Token.Split

/-!
# Lines of input

Lines that are typed in are read back one by one, as texts (`inputLines_typed`). Trimming a line
does not change its tokens, provided that nothing but spaces and tabs stands around its text
(`IsPlain.scan_trimmed`).
-/

set_option autoImplicit false

namespace Reckon

/-! ## Bytes -/

/-- What is typed to enter lines: each of them, and a line break after it. -/
def typed (lines : List String) : String := String.join (lines.map (· ++ "\n"))

theorem typed_nil : typed [] = "" := rfl

theorem typed_cons (line : String) (lines : List String) :
    typed (line :: lines) = line ++ "\n" ++ typed lines := by
  rw [typed, List.map_cons, String.join_cons, typed]

theorem typed_eq_intercalate {lines : List String} (h : lines ≠ []) :
    typed lines = "\n".intercalate lines ++ "\n" := by
  induction lines with
  | nil => exact absurd rfl h
  | cons line lines ih =>
    by_cases hlines : lines = []
    · subst hlines
      rw [typed_cons, String.intercalate_singleton, typed_nil, String.append_empty]
    · rw [typed_cons, ih hlines, String.intercalate_cons_of_ne_nil hlines]
      simp only [String.append_assoc]

/-- A line break at the end adds no token. -/
theorem scan_intercalate (lines : List String) :
    scan ("\n".intercalate lines) = scan (typed lines) := by
  by_cases hlines : lines = []
  · subst hlines
    rfl
  · have ht : (typed lines).toList = ("\n".intercalate lines).toList ++ '\n' :: "".toList := by
      rw [typed_eq_intercalate hlines]
      simp
    have hnone : scan "" = [] := rfl
    rw [scan_join (.inr (.inr rfl)) ht, hnone, List.map_nil, List.append_nil]

/-- The bytes of a text in UTF-8. -/
def encodeText (text : String) : List UInt8 := text.toUTF8.data.toList

theorem encodeText_eq (text : String) :
    encodeText text = text.toList.flatMap String.utf8EncodeChar := by
  have h : text.toUTF8 = (text.toList.flatMap String.utf8EncodeChar).toByteArray := by
    rw [String.toUTF8_eq_toByteArray, ← List.utf8Encode, ← String.toByteArray_ofList,
      String.ofList_toList]
  rw [encodeText, h, List.toList_data_toByteArray]

theorem encodeText_append (a b : String) : encodeText (a ++ b) = encodeText a ++ encodeText b := by
  simp only [encodeText_eq, String.toList_append, List.flatMap_append]

theorem decodeText?_encodeText (text : String) : decodeText? (encodeText text) = some text := by
  have h : (⟨(encodeText text).toArray⟩ : ByteArray) = text.toByteArray := rfl
  rw [decodeText?, h, String.fromUTF8?, dif_pos text.isValidUTF8]
  rfl

/-- No byte of another character is a line break. -/
theorem eq_break_of_mem_utf8EncodeChar {c : Char} (h : 10 ∈ String.utf8EncodeChar c) :
    c = '\n' := by
  have hbyte : ∀ n, (10 : UInt8) = UInt8.ofNat n ↔ n % 256 = 10 := by
    intro n
    rw [← UInt8.toNat_inj, UInt8.toNat_ofNat', eq_comm]
    rfl
  have hval : c.val.toNat = 10 := by
    -- in the longer encodings every byte is at least 128
    revert h
    fun_cases String.utf8EncodeChar c <;>
      simp only [List.mem_cons, List.not_mem_nil, or_false, hbyte] <;> omega
  exact Char.ext (UInt32.toNat_inj.1 hval)

theorem notMem_encodeText {line : String} (h : '\n' ∉ line.toList) : 10 ∉ encodeText line := by
  rw [encodeText_eq]
  intro hmem
  obtain ⟨c, hc, hbyte⟩ := List.mem_flatMap.1 hmem
  exact h (eq_break_of_mem_utf8EncodeChar hbyte ▸ hc)

theorem splitLines_append {line : List UInt8} (h : 10 ∉ line) (rest : List UInt8) :
    splitLines (line ++ 10 :: rest) = line :: splitLines rest := by
  induction line with
  | nil => rfl
  | cons byte line ih =>
    rw [List.mem_cons, not_or] at h
    obtain ⟨hbyte, hline⟩ := h
    rw [List.cons_append, splitLines, if_neg (Ne.symm hbyte), ih hline]

theorem inputLines_typed {lines : List String} (h : ∀ line ∈ lines, '\n' ∉ line.toList) :
    inputLines (encodeText (typed lines)) = lines.map some := by
  unfold inputLines
  induction lines with
  | nil => rfl
  | cons line lines ih =>
    obtain ⟨hline, hlines⟩ := List.forall_mem_cons.1 h
    have hbytes : encodeText (typed (line :: lines)) =
        encodeText line ++ 10 :: encodeText (typed lines) := by
      rw [typed_cons, encodeText_append, encodeText_append, List.append_assoc]
      rfl
    rw [hbytes, splitLines_append (notMem_encodeText hline), List.map_cons, ih hlines,
      decodeText?_encodeText, List.map_cons]

/-! ## Blanks around a line -/

theorem scanFrom_padding {l : List Char} (h : ∀ c ∈ l, c = ' ' ∨ c = '\t') (line : Nat)
    (rest : List Char) : scanFrom line 0 (l ++ rest) = scanFrom line 0 rest := by
  induction l with
  | nil => rfl
  | cons c l ih =>
    obtain ⟨hc, hl⟩ := List.forall_mem_cons.1 h
    rw [List.cons_append, scanFrom_blank hc, ih hl]

theorem scanFrom_append_padding {l : List Char} (h : ∀ c ∈ l, c = ' ' ∨ c = '\t') (line : Nat)
    (text : List Char) : scanFrom line 0 (text ++ l) = scanFrom line 0 text := by
  cases l with
  | nil => rw [List.append_nil]
  | cons w l =>
    have hw : IsGap w := (h w (List.mem_cons_self ..)).imp_right .inl
    have hnone := scanFrom_padding h (line + text.count '\n') []
    rw [List.append_nil] at hnone
    rw [scanFrom_append hw.separates text l line (Nat.zero_le _) (by simp), hnone, scanFrom,
      List.append_nil]

/-- A line with no line break in it and nothing but spaces and tabs around its text. -/
structure IsPlain (line : String) : Prop where
  unbroken : '\n' ∉ line.toList
  leading : ∀ c ∈ line.toList.takeWhile isBlank, c = ' ' ∨ c = '\t'
  trailing : ∀ c ∈ line.toList.reverse.takeWhile isBlank, c = ' ' ∨ c = '\t'

instance (line : String) : Decidable (IsPlain line) :=
  decidable_of_iff ('\n' ∉ line.toList ∧
    (line.toList.takeWhile isBlank).all (fun c => c = ' ' ∨ c = '\t') ∧
    (line.toList.reverse.takeWhile isBlank).all (fun c => c = ' ' ∨ c = '\t')) <| by
  simp only [List.all_eq_true, decide_eq_true_eq]
  exact ⟨fun ⟨h, h', h''⟩ => ⟨h, h', h''⟩, fun h => ⟨h.unbroken, h.leading, h.trailing⟩⟩

/-- The text of a line. -/
def trimmed (line : String) : String := String.ofList (trimBlanks line.toList)

/-- The line is not blank. -/
def hasText (line : String) : Bool := line.toList.any (!isBlank ·)

theorem trimBlanks_eq_nil_iff {text : List Char} :
    trimBlanks text = [] ↔ ∀ c ∈ text, isBlank c := by
  rw [trimBlanks, List.reverse_eq_nil_iff, List.dropWhile_eq_nil_iff]
  constructor
  · intro h c hc
    rw [← List.takeWhile_append_dropWhile (p := isBlank) (l := text), List.mem_append] at hc
    rcases hc with hc | hc
    · exact List.mem_takeWhile_imp hc
    · exact h c (List.mem_reverse.2 hc)
  · intro h c hc
    exact h c ((List.dropWhile_sublist isBlank).mem (List.mem_reverse.1 hc))

theorem hasText_iff {line : String} : hasText line ↔ trimBlanks line.toList ≠ [] := by
  rw [Ne, trimBlanks_eq_nil_iff, hasText]
  simp

theorem trimBlanks_of_blank {line : String} (h : ¬ hasText line) : trimBlanks line.toList = [] :=
  not_not.1 (mt hasText_iff.2 h)

theorem mem_takeWhile_append {α : Type} {p : α → Bool} {a b : List α} {x : α}
    (h : x ∈ a.takeWhile p) : x ∈ (a ++ b).takeWhile p := by
  rw [List.takeWhile_append]
  split
  · exact List.mem_append_left _ ((List.takeWhile_sublist p).mem h)
  · exact h

theorem IsPlain.scan_trimmed {line : String} (h : IsPlain line) :
    scan (trimmed line) = scan line := by
  have hlead : line.toList = line.toList.takeWhile isBlank ++ line.toList.dropWhile isBlank :=
    List.takeWhile_append_dropWhile.symm
  have htrail : line.toList.dropWhile isBlank = trimBlanks line.toList ++
      ((line.toList.dropWhile isBlank).reverse.takeWhile isBlank).reverse := by
    rw [trimBlanks, ← List.reverse_append, List.takeWhile_append_dropWhile, List.reverse_reverse]
  have hpadding : ∀ c ∈ ((line.toList.dropWhile isBlank).reverse.takeWhile isBlank).reverse,
      c = ' ' ∨ c = '\t' := by
    intro c hc
    refine h.trailing c ?_
    rw [hlead, List.reverse_append]
    exact mem_takeWhile_append (List.mem_reverse.1 hc)
  calc scan (trimmed line) = scanFrom 1 0 (trimBlanks line.toList) := by
        rw [scan, trimmed, String.toList_ofList]
    _ = scanFrom 1 0 (line.toList.dropWhile isBlank) := by
        rw [htrail, scanFrom_append_padding hpadding]
    _ = scan line := by
        rw [← scanFrom_padding h.leading 1 (line.toList.dropWhile isBlank), ← hlead, scan]

theorem IsPlain.scan_of_blank {line : String} (h : IsPlain line) (hblank : ¬ hasText line) :
    scan line = [] := by
  rw [← h.scan_trimmed, trimmed, trimBlanks_of_blank hblank]
  rfl

end Reckon
