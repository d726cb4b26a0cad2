import Mathlib.Data.List.Induction
import Reckon.Proofs.Token.Partition

/-!
# Foreign characters

Whether a character belongs to the language is a matter of the character itself, but for the second
half of an arrow, which needs the first half before it (`Foreign`). The unknown characters that
scanning reports are the foreign ones, each once and in order, so that a text is cut into tokens
exactly if it has none (`tokenize_foreign`).

Scanning goes from piece to piece. The pieces of a partition say what is foreign in them
(`Piece.Fits.foreigners`), as long as no arrow is cut in two where one piece ends and the next one
starts (`Piece.Fits.uncut`).
-/

set_option autoImplicit false

namespace Reckon

/-- The characters that tokens and gaps consist of, the second half of an arrow apart. -/
def isNative (c : Char) : Bool :=
  c.isAlphanum || ['_', ' ', '\t', '\n', '.', ',', '(', ')', '=', '+', '-', '*', '/'].contains c

/-- The character does not belong behind the text `before`. -/
def Foreign (before : List Char) (c : Char) : Prop :=
  isNative c = false ∧ ¬(c = '>' ∧ before.getLast? = some '-')

instance (before : List Char) (c : Char) : Decidable (Foreign before c) :=
  inferInstanceAs (Decidable (_ ∧ _))

/-- No character of the text is foreign. -/
def Clean (text : List Char) : Prop :=
  ∀ before c after, text = before ++ c :: after → ¬ Foreign before c

/-- The error for a foreign character behind `before`. -/
def foreign? (before : List Char) (c : Char) : Option SyntaxError :=
  if Foreign before c then some (.unknownCharacter c (1 + before.count '\n')) else none

/-- The errors for the foreign characters of a text that stands behind `lead`. -/
def foreigners (lead text : List Char) : List SyntaxError :=
  (text.mapIdx fun i c => foreign? (lead ++ text.take i) c).filterMap id

/-- The unknown characters that scanning reports. -/
def errorsOf (items : List (Except SyntaxError Located)) : List SyntaxError :=
  items.filterMap fun
    | .ok _ => none
    | .error e => some e

/-! ## The foreign characters of a text -/

theorem foreigners_cons (lead : List Char) (c : Char) (text : List Char) :
    foreigners lead (c :: text) = (foreign? lead c).toList ++ foreigners (lead ++ [c]) text := by
  simp only [foreigners, List.mapIdx_cons, List.take_zero, List.append_nil, List.take_succ_cons,
    List.append_assoc, List.cons_append, List.nil_append]
  cases foreign? lead c <;> rfl

theorem foreigners_append (lead v rest : List Char) :
    foreigners lead (v ++ rest) = foreigners lead v ++ foreigners (lead ++ v) rest := by
  induction v generalizing lead with
  | nil => simp [foreigners]
  | cons c v ih =>
    rw [List.cons_append, foreigners_cons, ih, foreigners_cons]
    simp

theorem foreigners_of_native {v : List Char} (h : ∀ c ∈ v, isNative c) (lead : List Char) :
    foreigners lead v = [] := by
  induction v generalizing lead with
  | nil => rfl
  | cons c v ih =>
    obtain ⟨hc, hv⟩ := List.forall_mem_cons.1 h
    rw [foreigners_cons, ih hv, foreign?, if_neg fun hf => by simp [hf.1] at hc]
    rfl

theorem foreigners_of_foreign {lead : List Char} {c : Char} (h : Foreign lead c) :
    foreigners lead [c] = [.unknownCharacter c (1 + lead.count '\n')] := by
  rw [foreigners_cons, foreign?, if_pos h]
  rfl

theorem foreigners_arrow (lead : List Char) : foreigners lead ['-', '>'] = [] := by
  have hsecond : ¬ Foreign (lead ++ ['-']) '>' := fun h => h.2 ⟨rfl, List.getLast?_concat⟩
  rw [foreigners_cons, foreigners_cons, foreign?, if_neg fun h => absurd h.1 (by decide), foreign?,
    if_neg hsecond]
  rfl

theorem mem_foreigners {text : List Char} {e : SyntaxError} :
    e ∈ foreigners [] text ↔ ∃ before c after, text = before ++ c :: after ∧ Foreign before c ∧
      e = .unknownCharacter c (1 + before.count '\n') := by
  constructor
  · intro h
    obtain ⟨o, ho, he⟩ := List.mem_filterMap.1 h
    obtain ⟨i, hi, rfl⟩ := List.mem_mapIdx.1 ho
    rw [id, foreign?, List.nil_append] at he
    split at he
    · next hf =>
      refine ⟨text.take i, text[i], text.drop (i + 1), ?_, hf, (Option.some.inj he).symm⟩
      rw [← List.drop_eq_getElem_cons, List.take_append_drop]
    · cases he
  · rintro ⟨before, c, after, rfl, hf, rfl⟩
    rw [foreigners_append, foreigners_cons, List.nil_append, foreign?, if_pos hf]
    simp

theorem foreigners_eq_nil_iff {text : List Char} : foreigners [] text = [] ↔ Clean text := by
  rw [List.eq_nil_iff_forall_not_mem]
  constructor
  · intro h before c after htext hf
    exact h _ (mem_foreigners.2 ⟨before, c, after, htext, hf, rfl⟩)
  · intro h e he
    obtain ⟨before, c, after, htext, hf, -⟩ := mem_foreigners.1 he
    exact h before c after htext hf

/-- The first foreign character has a clean text before it. -/
theorem head?_foreigners {text : List Char} {e : SyntaxError} :
    (foreigners [] text).head? = some e ↔ ∃ before c after, text = before ++ c :: after ∧
      Clean before ∧ Foreign before c ∧ e = .unknownCharacter c (1 + before.count '\n') := by
  constructor
  · intro h
    induction text using List.reverseRecOn with
    | nil => cases h
    | append_singleton text c ih =>
      rw [foreigners_append, List.nil_append] at h
      by_cases hclean : Clean text
      · rw [foreigners_eq_nil_iff.2 hclean, List.nil_append] at h
        by_cases hc : Foreign text c
        · rw [foreigners_of_foreign hc] at h
          exact ⟨text, c, [], rfl, hclean, hc, (Option.some.inj h).symm⟩
        · rw [foreigners_cons, foreign?, if_neg hc] at h
          cases h
      · have hne : foreigners [] text ≠ [] := fun hnil => hclean (foreigners_eq_nil_iff.1 hnil)
        rw [List.head?_append, Option.or_of_isSome (List.isSome_head?.2 hne)] at h
        obtain ⟨before, d, after, rfl, hrest⟩ := ih h
        exact ⟨before, d, after ++ [c], by simp, hrest⟩
  · rintro ⟨before, c, after, rfl, hclean, hc, rfl⟩
    rw [foreigners_append, foreigners_eq_nil_iff.2 hclean, List.nil_append, List.nil_append,
      foreigners_cons, foreign?, if_pos hc]
    rfl

/-! ## The foreign characters of a piece -/

theorem isNative_of_isDigit {c : Char} (h : c.isDigit) : isNative c := by
  simp [isNative, Char.isAlphanum, h]

theorem isNative_of_isWordPart {c : Char} (h : Lexeme.isWordPart c) : isNative c := by
  simp only [Lexeme.isWordPart, Bool.or_eq_true, decide_eq_true_eq] at h
  rcases h with h | rfl
  · simp [isNative, h]
  · rfl

theorem IsGap.isNative {c : Char} (h : IsGap c) : isNative c := by
  rcases h with rfl | rfl | rfl <;> rfl

theorem Spells.isNative {v : List Char} {t : Token} (h : Spells v t) (ht : t ≠ .mark .arrow) :
    ∀ c ∈ v, isNative c := by
  have hdigits : ∀ {ds}, Digits ds → ∀ c ∈ ds, Reckon.isNative c := fun hd c hc =>
    isNative_of_isDigit (hd.isDigit c hc)
  cases h with
  | whole hd => exact hdigits hd
  | decimal hd hf =>
    rw [List.forall_mem_append, List.forall_mem_cons]
    exact ⟨hdigits hd, rfl, hdigits hf⟩
  | name hw _ _ => exact fun c hc => isNative_of_isWordPart (hw.isWordPart c hc)
  | @mark m hl hb =>
    cases m with
    | arrow => exact absurd rfl ht
    | _ => exact List.all_eq_true.1 (by decide)

/-- No token but a minus ends like the first half of an arrow. -/
theorem Spells.eq_minus {v : List Char} {t : Token} (h : Spells v t)
    (hlast : v.getLast? = some '-') : v = ['-'] := by
  have hmem : '-' ∈ v := List.mem_of_getLast? hlast
  have hdigits : ∀ {ds}, Digits ds → '-' ∉ ds := fun hd hmem =>
    absurd (hd.isDigit _ hmem) (by decide)
  cases h with
  | whole hd => exact absurd hmem (hdigits hd)
  | decimal hd hf =>
    rcases List.mem_append.1 hmem with hmem | hmem
    · exact absurd hmem (hdigits hd)
    · rcases List.mem_cons.1 hmem with hpoint | hmem
      · exact absurd hpoint (by decide)
      · exact absurd hmem (hdigits hf)
  | name hw _ _ => exact absurd (hw.isWordPart _ hmem) (by decide)
  | @mark m hl hb =>
    cases m with
    | minus => rfl
    | _ => exact absurd hlast (by decide)

theorem Lexeme.sign?_ne_none {c : Char}
    (hc : c ∈ ['.', ',', '(', ')', '=', '+', '-', '*', '/']) (rest : List Char) :
    sign? (c :: rest) ≠ none := by
  unfold sign?
  split
  all_goals simp_all

/-- A character that starts no token belongs to a gap or not to the language. -/
theorem not_isNative_of_read? {c : Char} {rest : List Char} (hgap : ¬ IsGap c)
    (h : Lexeme.read? (c :: rest) = none) : isNative c = false := by
  rw [Lexeme.read?] at h
  split at h
  · cases h
  next hdigit =>
  split at h
  · cases h
  next hstart =>
  have hword : Lexeme.isWordPart c = false := by
    rw [Lexeme.isWordPart_eq]
    simp [hdigit, hstart]
  have hsign : c ∉ ['.', ',', '(', ')', '=', '+', '-', '*', '/'] := fun hc =>
    Lexeme.sign?_ne_none hc rest h
  simp only [Lexeme.isWordPart, IsGap] at hword hgap
  simp_all [isNative]

namespace Piece

variable {p : Piece} {lead rest : List Char}

theorem Fits.ne_nil {line : Nat} (h : p.Fits line rest) : p.text ≠ [] := by
  cases p with
  | gap c => simp [text]
  | token v t => exact h.1.spells.ne_nil
  | unknown c l => simp [text]

/-- No arrow has its first half at the end of a piece and its second half behind it. -/
theorem Fits.uncut {line : Nat} (h : p.Fits line rest) (hlast : p.text.getLast? = some '-') :
    rest.head? ≠ some '>' := by
  intro hhead
  obtain ⟨rest, rfl⟩ := List.head?_eq_some_iff.1 hhead
  cases p with
  | gap c =>
    obtain rfl : c = '-' := Option.some.inj hlast
    exact absurd h (show ¬ IsGap '-' by decide)
  | token v t =>
    obtain rfl := h.1.spells.eq_minus hlast
    have hlong := h.1.longest ['-', '>'] (.mark .arrow) ⟨rest, rfl⟩
      (.mark (m := .arrow) (by decide) (by decide))
    exact absurd hlong (by decide)
  | unknown c l =>
    obtain rfl : c = '-' := Option.some.inj hlast
    exact h.2.1 ['-'] (.mark .minus) ⟨_, rfl⟩ (.mark (m := .minus) (by decide) (by decide))

/-- Of a piece only an unknown character is foreign, and it is. -/
theorem Fits.foreigners (h : p.Fits (1 + lead.count '\n') rest)
    (hlead : lead.getLast? = some '-' → p.text.head? ≠ some '>') :
    foreigners lead p.text = errorsOf p.item?.toList := by
  cases p with
  | gap c => exact foreigners_of_native (by simpa [text] using h.isNative) lead
  | token v t =>
    by_cases ht : t.token = .mark .arrow
    · have hspells := h.1.spells
      rw [ht] at hspells
      cases hspells
      exact foreigners_arrow lead
    · exact foreigners_of_native (h.1.spells.isNative ht) lead
  | unknown c l =>
    obtain ⟨hgap, hnone, rfl⟩ := h
    refine foreigners_of_foreign ⟨not_isNative_of_read? hgap (Lexeme.read?_eq_none_iff.2 hnone), ?_⟩
    rintro ⟨rfl, hminus⟩
    exact hlead hminus rfl

end Piece

/-! ## Scanning -/

theorem errorsOf_append (items more : List (Except SyntaxError Located)) :
    errorsOf (items ++ more) = errorsOf items ++ errorsOf more :=
  List.filterMap_append

/-- By induction on the pieces, the text before them being `lead`. -/
theorem Partitions.errorsOf_eq {lead text : List Char} {items : List (Except SyntaxError Located)}
    {pieces : List Piece} (h : Partitions (1 + lead.count '\n') text items pieces)
    (hlead : lead.getLast? = some '-' → text.head? ≠ some '>') :
    errorsOf items = foreigners lead text := by
  induction pieces generalizing lead text items with
  | nil =>
    obtain ⟨rfl, rfl, -⟩ := h
    rfl
  | cons p pieces ih =>
    have hp : p.Fits (1 + lead.count '\n') (pieces.flatMap Piece.text) := h.fits [] p pieces rfl
    have hrest := h.tail
    rw [Nat.add_assoc, ← List.count_append] at hrest
    have huncut : (lead ++ p.text).getLast? = some '-' →
        (pieces.flatMap Piece.text).head? ≠ some '>' := by
      rw [List.getLast?_append, Option.or_of_isSome (List.getLast?_isSome.2 hp.ne_nil)]
      exact hp.uncut
    rw [← h.text_eq, List.flatMap_cons, List.head?_append,
      Option.or_of_isSome (List.isSome_head?.2 hp.ne_nil)] at hlead
    rw [← h.text_eq, ← h.items_eq, List.flatMap_cons, foreigners_append, hp.foreigners hlead,
      ← ih hrest huncut, ← errorsOf_append]
    cases p <;> rfl

theorem errorsOf_scan (source : String) : errorsOf (scan source) = foreigners [] source.toList := by
  obtain ⟨pieces, h⟩ := exists_partition 1 source.toList
  exact @Partitions.errorsOf_eq [] _ _ _ h (by simp)

/-- The first error decides. -/
theorem mapM_id_eq_error_iff {items : List (Except SyntaxError Located)} {e : SyntaxError} :
    items.mapM id = .error e ↔ (errorsOf items).head? = some e := by
  induction items with
  | nil => exact ⟨nofun, nofun⟩
  | cons item items ih =>
    rw [List.mapM_cons]
    cases item with
    | error e' => exact ⟨fun h => by cases h; rfl, fun h => by cases h; rfl⟩
    | ok t =>
      refine Iff.trans ?_ ih
      cases items.mapM id with
      | ok ts => exact ⟨nofun, nofun⟩
      | error e' => exact ⟨fun h => by cases h; rfl, fun h => by cases h; rfl⟩

theorem tokenize_eq_error_iff {source : String} {e : SyntaxError} :
    tokenize source = .error e ↔ (foreigners [] source.toList).head? = some e := by
  rw [← errorsOf_scan, ← mapM_id_eq_error_iff, tokenize]

theorem exists_tokenize_iff {source : String} :
    (∃ ts, tokenize source = .ok ts) ↔ Clean source.toList := by
  rw [← foreigners_eq_nil_iff, ← List.head?_eq_none_iff]
  cases h : tokenize source with
  | ok ts =>
    refine ⟨fun _ => Option.eq_none_iff_forall_ne_some.2 fun e he => ?_, fun _ => ⟨ts, rfl⟩⟩
    rw [tokenize_eq_error_iff.2 he] at h
    cases h
  | error e =>
    rw [tokenize_eq_error_iff.1 h]
    exact ⟨nofun, nofun⟩

theorem not_isDigit_of_mem_scan {source : String} {c : Char} {line : Nat}
    (h : .error (.unknownCharacter c line) ∈ scan source) : c.isDigit = false := by
  have hmem : SyntaxError.unknownCharacter c line ∈ errorsOf (scan source) :=
    List.mem_filterMap.2 ⟨_, h, rfl⟩
  rw [errorsOf_scan] at hmem
  obtain ⟨before, d, after, -, hf, he⟩ := mem_foreigners.1 hmem
  obtain ⟨rfl, -⟩ := SyntaxError.unknownCharacter.inj he
  exact Bool.eq_false_iff.2 fun hd => Bool.eq_false_iff.1 hf.1 (isNative_of_isDigit hd)

/-- Where a digit stands, a number is read. -/
theorem Lexeme.exists_read?_of_isDigit {c : Char} (hc : c.isDigit) (rest : List Char) :
    ∃ v x rest', c :: rest = v ++ rest' ∧ Spells v (.number x) ∧
      read? (c :: rest) = some ⟨.number x, v.length⟩ := by
  obtain ⟨v, rest', htext, hlen, hspells⟩ := numeral_spelled hc rest
  refine ⟨v, _, rest', htext, hspells, ?_⟩
  rw [read?, if_pos hc, hlen]
  rfl

/-- The errors of scanning are those for the foreign characters, in order and each on its line. A
text without foreign characters is cut into tokens, and any other fails for the first of them. Where a
digit stands, a number is read. -/
theorem tokenize_foreign (source : String) :
    errorsOf (scan source) = foreigners [] source.toList ∧
    ((∃ ts, tokenize source = .ok ts) ↔ Clean source.toList) ∧
    (∀ e, tokenize source = .error e ↔ ∃ before c after, source.toList = before ++ c :: after ∧
      Clean before ∧ Foreign before c ∧ e = .unknownCharacter c (1 + before.count '\n')) ∧
    (∀ c line, .error (.unknownCharacter c line) ∈ scan source → c.isDigit = false) ∧
    ∀ (c : Char) (rest : List Char), c.isDigit → ∃ v x rest', c :: rest = v ++ rest' ∧
      Spells v (.number x) ∧ Lexeme.read? (c :: rest) = some ⟨.number x, v.length⟩ := by
  refine ⟨errorsOf_scan source, exists_tokenize_iff, fun e => ?_, fun c line =>
    not_isDigit_of_mem_scan, fun c rest hc => Lexeme.exists_read?_of_isDigit hc rest⟩
  rw [tokenize_eq_error_iff, head?_foreigners]

/-- The second half of an arrow belongs behind the first half, even if that stands behind a minus, but
not behind another arrow or behind a point. -/
theorem tokenize_foreign_arrows :
    errorsOf (scan "-->\n->>1.>") = [.unknownCharacter '>' 2, .unknownCharacter '>' 2] ∧
      ∃ v x rest, ['1', '.', '>'] = v ++ rest ∧ Spells v (.number x) ∧
        Lexeme.read? ['1', '.', '>'] = some ⟨.number x, v.length⟩ := by
  obtain ⟨herrors, -, -, -, hdigit⟩ := tokenize_foreign "-->\n->>1.>"
  exact ⟨herrors.trans (by decide), hdigit '1' ['.', '>'] (by decide)⟩

end Reckon
