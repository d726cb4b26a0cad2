import Reckon.Proofs.Token.Partition

/-!
# Scanning undoes writing

Tokens are written one behind the other, each with a gap behind it (`Written`). A gap may be empty
where the two tokens around it do not run together (`Spaced`): a word takes in the letters and digits
behind it, a number the digits, and a number without a fraction also a point with a digit behind
it. From a text that is spaced like that, scanning gets the tokens back, each on its line
(`tokenize_render`).
-/

set_option autoImplicit false

namespace Reckon

/-- A token as it is written, and the gap behind it. -/
structure Written where
  text : List Char
  token : Token
  gap : List Char
  spells : Spells text token
  isGap : ∀ c ∈ gap, IsGap c

namespace Written

/-- Whether the second token, directly behind the first, would be taken for a part of it. -/
def merges (w u : Written) : Bool :=
  (w.token.isWord && (u.token.isWord || u.token.isNumber)) ||
    (w.token.isNumber && u.token.isNumber)

/-- A number without a fraction. -/
def isWhole (w : Written) : Bool := w.token.isNumber && !w.text.contains '.'

end Written

def render (row : List Written) : List Char := row.flatMap fun w => w.text ++ w.gap

/-- There is a gap between tokens that would run together, and on at least one side of a point
between a number without a fraction and another number. -/
def Spaced : List Written → Prop
  | w :: u :: row =>
    (w.merges u → w.gap ≠ []) ∧
    (w.isWhole → u.token = .mark .dot → ∀ x ∈ row.head?, x.token.isNumber →
      w.gap ≠ [] ∨ u.gap ≠ []) ∧
    Spaced (u :: row)
  | _ => True

theorem render_cons (w : Written) (row : List Written) :
    render (w :: row) = w.text ++ (w.gap ++ render row) := by
  rw [render, List.flatMap_cons, List.append_assoc]
  rfl

theorem Spaced.tail {w : Written} {row : List Written} (h : Spaced (w :: row)) : Spaced row := by
  cases row with
  | nil => trivial
  | cons u row => exact h.2.2

/-! ## What stands behind a token -/

/-- No character with the property `p` comes next: gaps do not have it, nor does the first character
of the next token if it comes without a gap. -/
theorem head_render {p : Char → Bool} (hp : ∀ c, IsGap c → p c = false) {gap : List Char}
    (hgap : ∀ c ∈ gap, IsGap c) {row : List Written}
    (hrow : gap = [] → ∀ u ∈ row.head?, ∀ c cs, Heads c cs u.token → p c = false) :
    ∀ c ∈ (gap ++ render row).head?, p c = false := by
  intro c hc
  cases gap with
  | cons d gap =>
    cases hc
    exact hp c (hgap c List.mem_cons_self)
  | nil =>
    cases row with
    | nil => cases hc
    | cons u row =>
      obtain ⟨d, cs, htext, hd⟩ := u.spells.heads
      rw [List.nil_append, render_cons, htext] at hc
      cases hc
      exact hrow rfl u rfl c cs hd

theorem fraction_of_head {l : List Char} (h : ∀ c ∈ l.head?, (c == '.') = false) :
    Lexeme.fraction l = [] := by
  rcases Lexeme.fraction_cases l with hnone | ⟨r, rfl, -⟩
  · exact hnone
  · exact absurd (h '.' rfl) (by decide)

/-- No token starts with the second half of an arrow. -/
theorem no_greater (w : Written) (row : List Written) :
    ∀ c ∈ (w.gap ++ render row).head?, (c == '>') = false := by
  refine head_render ?_ w.isGap fun _ _ _ _ _ hc => ?_
  · rintro c (rfl | rfl | rfl) <;> rfl
  · exact beq_false_of_ne hc.ne_greater

section
variable {w : Written} {row : List Written} (h : Spaced (w :: row))
include h

theorem Spaced.not_merges (hgap : w.gap = []) {u : Written} (hu : u ∈ row.head?) :
    w.merges u = false := by
  obtain ⟨row, rfl⟩ := List.head?_eq_some_iff.1 hu
  exact Bool.eq_false_iff.2 fun hm => h.1 hm hgap

theorem Spaced.no_digit (hw : w.token.isNumber) :
    ∀ c ∈ (w.gap ++ render row).head?, c.isDigit = false := by
  refine head_render ?_ w.isGap fun hgap u hu c cs hc => ?_
  · rintro c (rfl | rfl | rfl) <;> rfl
  · have hmerges := h.not_merges hgap hu
    simp only [Written.merges, hw, Bool.true_and, Bool.or_eq_false_iff] at hmerges
    rw [hc.isDigit, hmerges.2]

theorem Spaced.no_wordPart (hw : w.token.isWord) :
    ∀ c ∈ (w.gap ++ render row).head?, Lexeme.isWordPart c = false := by
  refine head_render ?_ w.isGap fun hgap u hu c cs hc => ?_
  · rintro c (rfl | rfl | rfl) <;> rfl
  · have hmerges := h.not_merges hgap hu
    simp only [Written.merges, hw, Bool.true_and, Bool.or_eq_false_iff] at hmerges
    rw [Lexeme.isWordPart_eq, hc.isDigit, hc.isWordStart, hmerges.1.1, hmerges.1.2]
    rfl

/-- A point behind a number without a fraction has no digit behind it. -/
theorem Spaced.no_fraction (hw : w.isWhole) : Lexeme.fraction (w.gap ++ render row) = [] := by
  cases hgap : w.gap with
  | cons c gap =>
    refine fraction_of_head fun d hd => ?_
    cases hd
    have hc := w.isGap c (by rw [hgap]; exact List.mem_cons_self)
    rcases hc with rfl | rfl | rfl <;> rfl
  | nil =>
    cases row with
    | nil => rfl
    | cons u row =>
      obtain ⟨c, cs, htext, hc⟩ := u.spells.heads
      rw [List.nil_append, render_cons, htext]
      by_cases hdot : c = '.'
      · obtain ⟨rfl, htoken⟩ := hc.dot hdot
        subst hdot
        have hnext : ∀ d ∈ (u.gap ++ render row).head?, d.isDigit = false := by
          refine head_render ?_ u.isGap fun hu x hx d ds hd => ?_
          · rintro d (rfl | rfl | rfl) <;> rfl
          · rw [hd.isDigit]
            refine Bool.eq_false_iff.2 fun hnumber => ?_
            rcases h.2.1 hw htoken x hx hnumber with hne | hne
            · exact hne hgap
            · exact hne hu
        exact takeWhile_run (l := []) (by simp) hnext
      · refine fraction_of_head fun d hd => ?_
        cases hd
        simpa using hdot

theorem Spaced.parted : Parted w.text w.token (w.gap ++ render row) := by
  refine ⟨h.no_digit, fun hn hpoint => h.no_fraction ?_, h.no_wordPart, fun _ hgreater => ?_⟩
  · simp [Written.isWhole, hn, hpoint]
  · exact absurd (no_greater w row '>' hgreater) (by decide)

end

/-! ## Scanning what is written -/

theorem scanFrom_gaps {gap : List Char} (h : ∀ c ∈ gap, IsGap c) (line : Nat) (rest : List Char) :
    scanFrom line 0 (gap ++ rest) = scanFrom (line + gap.count '\n') 0 rest := by
  induction gap generalizing line with
  | nil => rfl
  | cons c gap ih =>
    obtain ⟨hc, hgap⟩ := List.forall_mem_cons.1 h
    rw [List.cons_append, scanFrom_gap hc, ih hgap, Nat.add_assoc, ← List.count_append]
    rfl

/-- The tokens of a row behind `lead`, each on the line that is one more than the number of line
breaks before it. -/
def located (lead : List Char) (row : List Written) : List Located :=
  row.mapIdx fun i w => ⟨w.token, 1 + (lead ++ render (row.take i)).count '\n'⟩

theorem located_cons (lead : List Char) (w : Written) (row : List Written) :
    located lead (w :: row) =
      ⟨w.token, 1 + lead.count '\n'⟩ :: located (lead ++ (w.text ++ w.gap)) row := by
  rw [located, List.mapIdx_cons, located]
  simp only [List.take_succ_cons, List.take_zero, render_cons, List.append_assoc]
  rw [render, List.flatMap_nil, List.append_nil]

/-- By induction on the row: each token is read up to its gap, whatever comes before it. -/
theorem scanFrom_render {row : List Written} (h : Spaced row) (lead : List Char) :
    scanFrom (1 + lead.count '\n') 0 (render row) = (located lead row).map .ok := by
  induction row generalizing lead with
  | nil => rfl
  | cons w row ih =>
    have hlines : 1 + lead.count '\n' + w.gap.count '\n' =
        1 + (lead ++ (w.text ++ w.gap)).count '\n' := by
      rw [List.count_append, List.count_append, List.count_eq_zero_of_not_mem w.spells.unbroken,
        Nat.zero_add, Nat.add_assoc]
    rw [render_cons, w.spells.scanFrom (w.spells.read?_append h.parted), scanFrom_gaps w.isGap,
      hlines, ih h.tail, located_cons, List.map_cons]

/-- Scanning undoes writing: the tokens of a spaced row come back in order, each on its line. The
row may have a gap before it. -/
theorem tokenize_render (lead : List Char) (hlead : ∀ c ∈ lead, IsGap c) (row : List Written)
    (hrow : Spaced row) :
    tokenize (String.ofList (lead ++ render row)) = .ok (located lead row) := by
  refine tokenize_of_scan ?_
  rw [scan, String.toList_ofList, scanFrom_gaps hlead, scanFrom_render hrow]

/-- A point with a gap behind it, one behind a name and one in a number, and a minus before an
arrow. -/
theorem tokenize_render_points_and_arrow :
    tokenize "\n2. 5\n--> x1.5.25" =
      .ok [⟨.number (Decimal.ofParts ['2'] []).toFloat, 2⟩, ⟨.mark .dot, 2⟩,
        ⟨.number (Decimal.ofParts ['5'] []).toFloat, 2⟩, ⟨.mark .minus, 3⟩, ⟨.mark .arrow, 3⟩,
        ⟨.name "x1", 3⟩, ⟨.mark .dot, 3⟩,
        ⟨.number (Decimal.ofParts ['5'] ['2', '5']).toFloat, 3⟩] := by
  -- the row is complete before it is compared with the text
  have h := tokenize_render ['\n'] (by simp [IsGap])
    [⟨['2'], _, [], .whole ⟨by decide, by simp⟩, by simp⟩,
      ⟨_, .mark .dot, [' '], .mark (by decide) (by decide), by simp [IsGap]⟩,
      ⟨['5'], _, ['\n'], .whole ⟨by decide, by simp⟩, by simp [IsGap]⟩,
      ⟨_, .mark .minus, [], .mark (by decide) (by decide), by simp⟩,
      ⟨_, .mark .arrow, [' '], .mark (by decide) (by decide), by simp [IsGap]⟩,
      ⟨['x', '1'], _, [],
        .name ⟨⟨'x', rfl, by decide⟩, List.all_eq_true.1 (by decide)⟩ (by decide) (by decide),
        by simp⟩,
      ⟨_, .mark .dot, [], .mark (by decide) (by decide), by simp⟩,
      ⟨['5'] ++ '.' :: ['2', '5'], _, [],
        .decimal ⟨by decide, by simp⟩ ⟨by decide, by simp⟩, by simp⟩]
    (by simp [Spaced, Written.merges, Written.isWhole, Token.isWord, Token.isNumber])
  exact h

/-- A numeral is read as the number that it says or, where no double is that number, as the nearest
one. -/
example : (tokenize "5.25\n0.1").toOption =
    some [⟨.number (21 / 4), 1⟩, ⟨.number (.ofBits 0x3FB999999999999A), 2⟩] := by
  decide +kernel

end Reckon
