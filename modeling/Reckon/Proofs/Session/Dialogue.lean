import Mathlib.Data.List.ReduceOption
import Reckon.CommandLine
import Reckon.Proofs.Session.Metered
import Reckon.Proofs.Text.Input

/-!
# Dialogues and scripts

A dialogue in which no line fails shows, as its last result, what the script of all its lines shows
(`dialogue_script`). The dialogue runs each line by itself and without the blanks around it; the
script is one text. The two are compared from the last line back to the first: a blank line only
moves the lines after it down (`ComesTo.after_blank`), and any other line hands its scope on to them
(`ComesTo.after_text`).
-/

set_option autoImplicit false

namespace Reckon

/-! ## What is shown -/

theorem Value.text_mapLines {τ : Type} (v : Value τ) (g : Nat → Nat) :
    (v.mapLines g).text = v.text := by
  cases v <;> rfl

theorem RunMoved.text_eq {G : (Nat → Nat) → Prop} {r r' : Except Error (Value Nat) × Session}
    (h : RunMoved G r r') {v : Value Nat} (hv : r.1 = .ok v) :
    ∃ v', r'.1 = .ok v' ∧ v'.text = v.text := by
  have houtcome := h.outcome
  rw [hv] at houtcome
  generalize r'.1 = outcome at houtcome
  cases houtcome with
  | ok hmoved =>
    obtain ⟨g, -, rfl⟩ := hmoved
    exact ⟨_, rfl, v.text_mapLines g⟩

/-- The answer to a line that comes to a value, or to none because it is blank. -/
def Reply.ofValue? : Option (Value Nat) → Reply
  | some v => .result v
  | none => .silence

theorem Reply.text_ofValue? (elapsed : String) (o : Option (Value Nat)) :
    (ofValue? o).text elapsed = o.elim "" fun v => s!"result: {v.text} ({elapsed} sec)\n" := by
  cases o <;> rfl

/-- Each line that is not blank has a value, and no other line has. -/
abbrev Shows (shown : List (Option (Value Nat))) (lines : List String) : Prop :=
  List.Forall₂ (fun o line => o.isSome = hasText line) shown lines

theorem Shows.exists_last {shown : List (Option (Value Nat))} {lines : List String}
    (h : Shows shown lines) (htext : ∃ line ∈ lines, hasText line) :
    ∃ v, shown.reduceOption.getLast? = some v := by
  induction h with
  | nil => simp at htext
  | @cons o line shown lines ho _ ih =>
    cases o with
    | some v =>
      rw [List.reduceOption_cons_of_some, List.getLast?_cons]
      exact ⟨_, rfl⟩
    | none =>
      rw [List.reduceOption_cons_of_none]
      obtain ⟨other, hmem, hother⟩ := htext
      rcases List.mem_cons.1 hmem with rfl | hmem
      · rw [hother] at ho
        cases ho
      · exact ih ⟨other, hmem, hother⟩

/-! ## Programs need tokens -/

/-- The shortest program is an expression and a dot. -/
theorem Reading.Program.two_le_length {limit d : Nat} {ts : List Located}
    {program : List (Statement Unit)} (h : Reading.Program limit d ts program) : 2 ≤ ts.length := by
  cases h with
  | last hes => exact hes.length_lt
  | more hes _ =>
    have hlength := hes.length_lt
    simp only [List.length_cons] at hlength ⊢
    omega

namespace Session

variable {s : Session} {v : Value Nat}

theorem run_congr {a b : String} (h : scan a = scan b) : s.run a = s.run b := by
  have hparse : parse s.settings.maxNestingDepth a = parse s.settings.maxNestingDepth b := by
    unfold parse tokenize
    rw [h]
  unfold run
  rw [hparse]

/-- Only programs have values. -/
theorem parse_of_run_ok {source : String} (h : (s.run source).1 = .ok v) :
    ∃ program, parse s.settings.maxNestingDepth source = .ok program := by
  cases hp : parse s.settings.maxNestingDepth source with
  | ok program => exact ⟨program, rfl⟩
  | error e =>
    rw [run_of_error hp] at h
    cases h

theorem two_le_length_of_run_ok {source : String} (h : (s.run source).1 = .ok v)
    {ts : List Located} (hts : tokenize source = .ok ts) : 2 ≤ ts.length := by
  obtain ⟨program, hprogram⟩ := parse_of_run_ok h
  obtain ⟨us, hus, hparse⟩ := parse_eq_ok hprogram
  obtain rfl : us = ts := Except.ok.inj (hus.symm.trans hts)
  exact (parseTokens_eq_ok_iff.1 hparse).two_le_length

theorem scan_ne_nil_of_run_ok {source : String} (h : (s.run source).1 = .ok v) :
    scan source ≠ [] := by
  intro hnone
  have hts : tokenize source = .ok [] := tokenize_of_scan hnone
  exact absurd (two_le_length_of_run_ok h hts) (by decide)

/-! ## From line to line -/

theorem isGap_break : IsGap '\n' := .inr (.inr rfl)

theorem toList_next_line (line text : String) :
    (line ++ "\n" ++ text).toList = line.toList ++ '\n' :: text.toList := by
  simp

/-- Run in `s`, the text comes to a value that looks like the given one. A text without value is one
without tokens. -/
def ComesTo (s : Session) (text : String) : Option (Value Nat) → Prop
  | none => scan text = []
  | some v => scan text ≠ [] ∧ ∃ v', (s.run text).1 = .ok v' ∧ v'.text = v.text

namespace ComesTo

variable {line text : String} {o : Option (Value Nat)}

theorem congr {other : String} (hscan : scan other = scan text) (h : s.ComesTo text o) :
    s.ComesTo other o := by
  cases o with
  | none => exact hscan.trans h
  | some v =>
    refine ⟨hscan ▸ h.1, ?_⟩
    rw [run_congr hscan]
    exact h.2

theorem after_blank (hline : scan line = []) (h : s.ComesTo text o) :
    s.ComesTo (line ++ "\n" ++ text) o := by
  have ht := toList_next_line line text
  have hscan := scan_join isGap_break ht
  rw [hline, List.nil_append] at hscan
  cases o with
  | none =>
    have htext : scan text = [] := h
    exact hscan.trans (by rw [htext, List.map_nil])
  | some v =>
    obtain ⟨hne, v', hv', hshown⟩ := h
    refine ⟨by simpa [hscan] using hne, ?_⟩
    obtain ⟨program, hprogram⟩ := parse_of_run_ok hv'
    generalize hk : (line.toList ++ ['\n']).count '\n' = k at hscan
    have hparse : parse s.settings.maxNestingDepth (line ++ "\n" ++ text) =
        .ok (program.map (Statement.mapLines (· + k))) := by
      rw [parse_after_gap isGap_break ht hline hne, hprogram, hk]
      rfl
    have hmoved : RunMoved (Raising k) (s.perform program)
        (s.perform (program.map (Statement.mapLines (· + k)))) :=
      perform_mapLines (.inl rfl) (.inr rfl) s program
    rw [run_of_ok hprogram] at hv'
    rw [run_of_ok hparse]
    obtain ⟨w, hw, heq⟩ := hmoved.text_eq hv'
    exact ⟨w, hw, heq.trans hshown⟩

theorem after_text (hline : (s.run line).1 = .ok v) (h : (s.run line).2.ComesTo text o) :
    s.ComesTo (line ++ "\n" ++ text) (some (o.getD v)) := by
  have ht := toList_next_line line text
  have hscan := scan_join isGap_break ht
  refine ⟨by simp [hscan, scan_ne_nil_of_run_ok hline], ?_⟩
  cases o with
  | none =>
    have htext : scan text = [] := h
    rw [htext, List.map_nil, List.append_nil] at hscan
    rw [run_congr hscan]
    exact ⟨v, hline, rfl⟩
  | some w =>
    obtain ⟨hne, w', hw', hshown⟩ := h
    obtain ⟨pa, hpa⟩ := parse_of_run_ok hline
    obtain ⟨pb, hpb⟩ := parse_of_run_ok hw'
    rw [settings_run] at hpb
    obtain ⟨-, hmoved⟩ := run_gap_of_ok isGap_break ht hpa hne hpb hline
    obtain ⟨u, hu, heq⟩ := hmoved.text_eq hw'
    exact ⟨u, hu, heq.trans hshown⟩

end ComesTo

/-! ## Dialogues -/

/-- Run one after another, the texts all have values. -/
def Succeeds : Session → List String → Prop
  | _, [] => True
  | s, text :: texts => (∃ v, (s.run text).1 = .ok v) ∧ (s.run text).2.Succeeds texts

/-- What the texts come to, run one after another. -/
def outcomes : Session → List String → List (Except Error (Value Nat))
  | _, [] => []
  | s, text :: texts => (s.run text).1 :: (s.run text).2.outcomes texts

/-- The word that ends a dialogue is no program. -/
theorem trimmed_ne_exit {line : String} (hv : (s.run (trimmed line)).1 = .ok v) :
    trimBlanks line.toList ≠ "exit".toList := by
  intro hexit
  have hts : tokenize (trimmed line) = .ok [⟨.name "exit", 1⟩] := by
    rw [trimmed, hexit, String.ofList_toList]
    decide +kernel
  exact absurd (two_le_length_of_run_ok hv hts) (by decide)

theorem answer?_of_ok {line : String} (hplain : IsPlain line) (htext : hasText line)
    (hv : (s.run line).1 = .ok v) : s.answer? line = some (.result v, (s.run line).2) := by
  have hrun : s.run (trimmed line) = s.run line := run_congr hplain.scan_trimmed
  have hexit : trimBlanks line.toList ≠ "exit".toList :=
    trimmed_ne_exit (by rw [hrun]; exact hv)
  have hne : trimBlanks line.toList ≠ [] := hasText_iff.1 htext
  unfold answer?
  rw [if_neg hexit, if_neg (by simpa using hne), ← trimmed, hrun]
  generalize s.run line = r at hv
  obtain ⟨outcome, t⟩ := r
  subst hv
  rfl

theorem answer?_of_blank {line : String} (hblank : ¬ hasText line) :
    s.answer? line = some (.silence, s) := by
  unfold answer?
  rw [trimBlanks_of_blank hblank]
  rfl

/-- The answers to the lines, and the script of these lines, from any session on. -/
theorem succeeds_replies {lines : List String} (hplain : ∀ line ∈ lines, IsPlain line)
    (h : s.Succeeds (lines.filter hasText)) :
    ∃ shown, Shows shown lines ∧
      s.outcomes (lines.filter hasText) = shown.reduceOption.map .ok ∧
      s.replies (lines.map some) = shown.map Reply.ofValue? ∧
      s.ComesTo (typed lines) shown.reduceOption.getLast? := by
  induction lines generalizing s with
  | nil => exact ⟨[], .nil, rfl, rfl, rfl⟩
  | cons line lines ih =>
    obtain ⟨hline, hlines⟩ := List.forall_mem_cons.1 hplain
    rw [List.map_cons, replies, typed_cons]
    by_cases htext : hasText line
    · rw [List.filter_cons_of_pos htext] at h ⊢
      obtain ⟨⟨v, hv⟩, hrest⟩ := h
      obtain ⟨shown, hshown, houtcomes, hreplies, hcomes⟩ := ih hlines hrest
      refine ⟨some v :: shown, .cons htext.symm hshown, ?_, ?_, ?_⟩
      · rw [outcomes, hv, houtcomes]
        rfl
      · rw [answer?_of_ok hline htext hv, List.map_cons, ← hreplies]
        rfl
      · rw [List.reduceOption_cons_of_some, List.getLast?_cons]
        exact hcomes.after_text hv
    · rw [List.filter_cons_of_neg htext] at h ⊢
      obtain ⟨shown, hshown, houtcomes, hreplies, hcomes⟩ := ih hlines h
      refine ⟨none :: shown, .cons (Bool.eq_false_iff.2 htext).symm hshown, ?_, ?_, ?_⟩
      · rw [List.reduceOption_cons_of_none, houtcomes]
      · rw [answer?_of_blank htext, List.map_cons, ← hreplies]
        rfl
      · rw [List.reduceOption_cons_of_none]
        exact hcomes.after_blank (hline.scan_of_blank htext)

end Session

/-- A dialogue without failures writes a result for every line that is not blank, with the value that
the line comes to, and nothing but the prompt for any other line. Its last result looks like the one
that the script of all lines shows. -/
theorem dialogue_script (settings : Settings) (elapsed : Nat → String) {lines : List String}
    (hplain : ∀ line ∈ lines, IsPlain line) (htext : ∃ line ∈ lines, hasText line)
    (hok : Session.Succeeds { settings } (lines.filter hasText)) :
    ∃ shown : List (Option (Value Nat)),
      List.Forall₂ (fun o line => o.isSome = hasText line) shown lines ∧
      Session.outcomes { settings } (lines.filter hasText) = shown.reduceOption.map .ok ∧
      Session.transcript { settings } elapsed (inputLines (encodeText (typed lines))) =
        banner ++ prompt ++ String.join (shown.mapIdx fun i o =>
          (o.elim "" fun v => s!"result: {v.text} ({elapsed i} sec)\n") ++ prompt) ∧
      ∃ v, shown.reduceOption.getLast? = some v ∧
        Outcome.ofScript settings ("\n".intercalate lines) =
          { exitCode := 0, output := v.text ++ "\n" } := by
  have hinput : inputLines (encodeText (typed lines)) = lines.map some :=
    inputLines_typed fun line hline => (hplain line hline).unbroken
  obtain ⟨shown, hshown, houtcomes, hreplies, hcomes⟩ := Session.succeeds_replies hplain hok
  obtain ⟨v, hv⟩ := hshown.exists_last htext
  refine ⟨shown, hshown, houtcomes, ?_, v, hv, ?_⟩
  · rw [hinput, Session.transcript, hreplies]
    simp [List.mapIdx_eq_zipIdx_map, List.zipIdx_map, Function.comp_def, Reply.text_ofValue?]
  · rw [hv] at hcomes
    obtain ⟨-, v', hv', hlooks⟩ := hcomes.congr (scan_intercalate lines)
    rw [Outcome.ofScript, hv', ← hlooks]

/-- The second line is blank, and the third has blanks around its text. -/
theorem dialogue_script_three_lines :
    let lines := ["f=fun(x)->x end.", "", "\tf(f). "]
    let elapsed (i : Nat) := if i = 0 then "0.000021" else "0.000008"
    (∀ line ∈ lines, IsPlain line) ∧ (∃ line ∈ lines, hasText line) ∧
      Session.Succeeds {} (lines.filter hasText) ∧
      Session.transcript {} elapsed (inputLines (encodeText (typed lines))) =
        "funcalc 0.1.0\n> result: fun(x) (0.000021 sec)\n> > result: fun(x) (0.000008 sec)\n> " ∧
      Outcome.ofScript {} ("\n".intercalate lines) = { exitCode := 0, output := "fun(x)\n" } := by
  intro lines elapsed
  have hplain : ∀ line ∈ lines, IsPlain line := by decide
  have htext : ∃ line ∈ lines, hasText line := ⟨_, List.mem_cons_self, by decide⟩
  have hlines : lines.filter hasText = ["f=fun(x)->x end.", "\tf(f). "] := by decide
  let f : Value Nat := .function ⟨0, ["x"], [.var "x" 1], 1⟩
  have hok : Session.Succeeds {} (lines.filter hasText) := by
    rw [hlines]
    exact ⟨⟨f, by decide +kernel⟩, ⟨f, by decide +kernel⟩, trivial⟩
  have houtcomes : Session.outcomes {} (lines.filter hasText) = [.ok f, .ok f] := by
    rw [hlines]
    decide +kernel
  obtain ⟨shown, hshown, hvalues, htranscript, v, hv, hscript⟩ :=
    dialogue_script {} elapsed hplain htext hok
  obtain rfl : shown = [some f, none, some f] := by
    obtain ⟨o₁, _, h₁, hsecond, rfl⟩ := List.forall₂_cons_right_iff.1 hshown
    obtain ⟨o₂, _, h₂, hthird, rfl⟩ := List.forall₂_cons_right_iff.1 hsecond
    obtain ⟨o₃, _, h₃, hnone, rfl⟩ := List.forall₂_cons_right_iff.1 hthird
    obtain rfl := List.forall₂_nil_right_iff.1 hnone
    obtain ⟨v₁, rfl⟩ := Option.isSome_iff_exists.1 (h₁.trans (by decide))
    obtain rfl := Option.isNone_iff_eq_none.1 (Option.isSome_eq_false_iff.1 (h₂.trans (by decide)))
    obtain ⟨v₃, rfl⟩ := Option.isSome_iff_exists.1 (h₃.trans (by decide))
    cases houtcomes.symm.trans hvalues
    rfl
  refine ⟨hplain, htext, hok, htranscript.trans rfl, ?_⟩
  cases hv
  exact hscript

end Reckon
