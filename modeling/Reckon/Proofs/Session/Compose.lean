import Reckon.Proofs.Eval.Flat
import Reckon.Proofs.Eval.Lines
import Reckon.Proofs.Parse.Append
import Reckon.Session

/-!
# One text or two

A session that runs two texts joined by a line break does what it does when it runs them one after
the other (`Session.run_join`). Nothing is carried over from the first text to the second but the
scope and the serial numbers: no token goes across the joint, the levels that the first text opens
are closed, and so are the calls. Only lines tell the difference, since the second text starts
further down. -/

set_option autoImplicit false

namespace Reckon

/-! ## Evaluation of programs one after the other -/

section
variable {τ : Type}

theorem evalAllWith_append (division : Division) (call : Call τ) (es fs : List (Expr τ)) :
    evalAllWith division call (es ++ fs) = evalAllWith division call es >>= fun vs =>
      evalAllWith division call fs >>= fun ws => pure (vs ++ ws) := by
  induction es with
  | nil => simp [evalAllWith]
  | cons e es ih =>
    rw [List.cons_append, evalAllWith, evalAllWith, ih]
    simp only [bind_assoc, pure_bind, List.cons_append]

theorem length_evalAllWith {division : Division} {call : Call τ} {es : List (Expr τ)}
    {m m' : Machine τ} {vs : List (Value τ)} (h : evalAllWith division call es m = .ok vs m') :
    vs.length = es.length := by
  induction es generalizing m vs with
  | nil =>
    rw [evalAllWith] at h
    cases h
    rfl
  | cons e es ih =>
    rw [evalAllWith] at h
    obtain ⟨v, m₁, -, h⟩ := bind_eq_ok_iff.1 h
    obtain ⟨vs', m₂, hvs, h⟩ := bind_eq_ok_iff.1 h
    cases h
    rw [List.length_cons, List.length_cons, ih hvs]

/-- The value of the first program is dropped, unless the second one has none. -/
theorem evalStatements_append (settings : Settings) (p : List (Statement τ))
    {q : List (Statement τ)} (hq : q.flatMap Statement.expressions ≠ []) :
    evalStatements settings (p ++ q) =
      evalStatements settings p >>= fun _ => evalStatements settings q := by
  unfold evalStatements evalSequence evalLastWith
  rw [List.flatMap_append, evalAllWith_append]
  simp only [bind_assoc, pure_bind]
  refine bind_congr fun vs => ?_
  funext m
  refine bind_eq_of rfl fun ws m' hws => ?_
  -- every expression has a value, so that the last one is a value of `q`
  have hne : ws ≠ [] := by
    have hlen := length_evalAllWith hws
    exact List.ne_nil_of_length_pos (hlen ▸ List.length_pos_iff.2 hq)
  rw [List.getLast?_append_of_ne_nil _ hne]

theorem callDepth_evalStatements {settings : Settings} {program : List (Statement τ)}
    {m m' : Machine τ} {v : Value τ} (h : evalStatements settings program m = .ok v m') :
    m'.callDepth = m.callDepth := by
  have hsim : Simulates (Flat.Shows m.callDepth m.scope.outer) Eq Eq
      (evalStatements settings program) _ := Flat.simulates_evalStatements program
  have hr := hsim m m.scope.env ⟨rfl, rfl, rfl⟩
  rw [h] at hr
  generalize Flat.statements _ _ _ _ _ = r at hr
  cases hr with
  | ok _ hs => exact hs.depth

end

/-! ## Numbering of programs one after the other -/

section
variable {τ : Type}

/-- A program with serial numbers from `n` on, and the next free number. -/
def numbered (program : List (Statement τ)) (n : Nat) : List (Statement Nat) × Nat :=
  (program.mapM Statement.serial).run n

theorem numbered_append (p q : List (Statement τ)) (n : Nat) :
    numbered (p ++ q) n = ((numbered p n).1 ++ (numbered q (numbered p n).2).1,
      (numbered q (numbered p n).2).2) := by
  unfold numbered
  rw [List.mapM_append]
  rfl

theorem numbered_mapLines (f : Nat → Nat) (p : List (Statement τ)) (n : Nat) :
    numbered (p.map (Statement.mapLines f)) n =
      ((numbered p n).1.map (Statement.mapLines f), (numbered p n).2) := by
  unfold numbered
  rw [mapM_serial_mapLines]
  rfl

theorem numbered_cons (s : Statement τ) (p : List (Statement τ)) (n : Nat) :
    numbered (s :: p) n = ((s.serial.run n).1 :: (numbered p (s.serial.run n).2).1,
      (numbered p (s.serial.run n).2).2) := by
  unfold numbered
  rw [List.mapM_cons]
  rfl

theorem numbered_ne_nil {p : List (Statement τ)} (hp : p.flatMap Statement.expressions ≠ [])
    (n : Nat) : (numbered p n).1.flatMap Statement.expressions ≠ [] := by
  induction p generalizing n with
  | nil => exact absurd rfl hp
  | cons s p ih =>
    obtain ⟨es, line⟩ := s
    rw [numbered_cons]
    cases es with
    | nil => exact ih hp _
    | cons e es => exact List.cons_ne_nil _ _

end

/-! ## Sessions -/

namespace Session

theorem execute_eq (s : Session) (program : List (Statement Unit)) :
    s.execute program =
      match evalStatements s.settings (numbered program s.nextSerial).1 { scope := s.scope } with
      | .ok v m =>
        (.ok v, { s with scope := m.scope, nextSerial := (numbered program s.nextSerial).2 })
      | .error e m =>
        (.error e, { s with scope := m.scope, nextSerial := (numbered program s.nextSerial).2 }) :=
  rfl

theorem execute_append (s : Session) (p : List (Statement Unit)) {q : List (Statement Unit)}
    (hq : q.flatMap Statement.expressions ≠ []) :
    s.execute (p ++ q) =
      match s.execute p with
      | (.ok _, s₁) => s₁.execute q
      | (.error e, s₁) => (.error e, { s₁ with nextSerial := (numbered q s₁.nextSerial).2 }) := by
  rw [execute_eq s (p ++ q), execute_eq s p, numbered_append,
    evalStatements_append _ _ (numbered_ne_nil hq _)]
  cases hp : evalStatements s.settings (numbered p s.nextSerial).1 { scope := s.scope } with
  | error e m => rw [bind_of_error hp]
  | ok v m =>
    obtain ⟨scope, depth⟩ := m
    -- no call of the first program is still active
    obtain rfl : depth = 0 := callDepth_evalStatements hp
    rw [bind_of_ok hp]
    rfl

@[simp] theorem settings_execute (s : Session) (program : List (Statement Unit)) :
    (s.execute program).2.settings = s.settings := by
  rw [execute_eq]
  split <;> rfl

/-- Runs a program, with its errors as those of a source text. -/
def perform (s : Session) (program : List (Statement Unit)) : Except Error (Value Nat) × Session :=
  ((s.execute program).1.mapError .runtimeError, (s.execute program).2)

theorem run_of_ok {s : Session} {source : String} {program : List (Statement Unit)}
    (h : parse s.settings.maxNestingDepth source = .ok program) :
    s.run source = s.perform program := by
  unfold run
  rw [h]
  rfl

theorem run_of_error {s : Session} {source : String} {e : SyntaxError}
    (h : parse s.settings.maxNestingDepth source = .error e) :
    s.run source = (.error (.syntaxError e), s) := by
  unfold run
  rw [h]

theorem perform_append (s : Session) (p : List (Statement Unit)) {q : List (Statement Unit)}
    (hq : q.flatMap Statement.expressions ≠ []) :
    s.perform (p ++ q) =
      match s.perform p with
      | (.ok _, s₁) => s₁.perform q
      | (.error e, s₁) => (.error e, { s₁ with nextSerial := (numbered q s₁.nextSerial).2 }) := by
  unfold perform
  rw [execute_append s p hq]
  generalize s.execute p = r
  obtain ⟨_ | _, s₁⟩ := r <;> rfl

end Session

/-- Programs from source texts are not without expressions. -/
theorem flatMap_ne_nil_of_parse {limit : Nat} {source : String} {program : List (Statement Unit)}
    (h : parse limit source = .ok program) : program.flatMap Statement.expressions ≠ [] := by
  obtain ⟨ts, -, hts⟩ := parse_eq_ok h
  cases parseTokens_eq_ok_iff.1 hts with
  | last hes => simpa using hes.ne_nil
  | more hes _ => simp [hes.ne_nil]

/-! ## Runs up to lines -/

/-- The same kind of outcome, with a moved value or a moved error. -/
inductive OutcomeMoved (G : (Nat → Nat) → Prop) :
    Except Error (Value Nat) → Except Error (Value Nat) → Prop
  | ok {v v' : Value Nat} : v.Moved G v' → OutcomeMoved G (.ok v) (.ok v')
  | error {e : Error} {g : Nat → Nat} : G g → OutcomeMoved G (.error e) (.error (e.mapLines g))

/-- Two runs come to the same, up to the line maps of `G`. -/
structure RunMoved (G : (Nat → Nat) → Prop) (r r' : Except Error (Value Nat) × Session) : Prop where
  outcome : OutcomeMoved G r.1 r'.1
  settings : r'.2.settings = r.2.settings
  nextSerial : r'.2.nextSerial = r.2.nextSerial
  scope : r.2.scope.Moved G r'.2.scope

theorem perform_mapLines {G : (Nat → Nat) → Prop} {g : Nat → Nat} (hid : G id) (hg : G g)
    (s : Session) (program : List (Statement Unit)) :
    RunMoved G (s.perform program) (s.perform (program.map (Statement.mapLines g))) := by
  have hr := moves_evalStatements hg s.settings (numbered program s.nextSerial).1
    { scope := s.scope } { scope := s.scope } ⟨rfl, .refl hid _⟩
  unfold Session.perform
  rw [Session.execute_eq, Session.execute_eq, numbered_mapLines]
  generalize evalStatements s.settings (numbered program s.nextSerial).1 { scope := s.scope } = r,
    evalStatements s.settings ((numbered program s.nextSerial).1.map (Statement.mapLines g))
      { scope := s.scope } = r' at hr ⊢
  cases hr with
  | ok hv hm => exact ⟨.ok hv, rfl, rfl, hm.scope⟩
  | error he hm =>
    obtain ⟨g', hg', rfl⟩ := he
    exact ⟨.error (e := .runtimeError _) hg', rfl, rfl, hm.scope⟩

theorem RunMoved.eq {G : (Nat → Nat) → Prop} (hG : ∀ g, G g → g = id)
    {r r' : Except Error (Value Nat) × Session} (h : RunMoved G r r') : r' = r := by
  obtain ⟨outcome, settings, scope, nextSerial⟩ := r
  obtain ⟨outcome', settings', scope', nextSerial'⟩ := r'
  obtain ⟨houtcome, hsettings, hserial, hscope⟩ := h
  simp only at houtcome hsettings hserial hscope
  rw [hsettings, hserial, hscope.eq hG]
  cases houtcome with
  | ok hv => rw [hv.eq hG]
  | @error e g hg =>
    rw [hG g hg]
    cases e <;> simp [Error.mapLines]

/-- Lines stay where they are, or are raised by `k`. -/
def Raising (k : Nat) (g : Nat → Nat) : Prop := g = id ∨ g = (· + k)

theorem Raising.eq_id {g : Nat → Nat} (h : Raising 0 g) : g = id := by
  rcases h with h | h <;> exact h

/-! ## Joined texts -/

namespace Session

section
variable {s : Session} {a b text : String} {w : Char} {pa pb : List (Statement Unit)}
  (hw : IsGap w) (ht : text.toList = a.toList ++ w :: b.toList)
  (ha : parse s.settings.maxNestingDepth a = .ok pa) (hb : scan b ≠ [])
  (hpb : parse s.settings.maxNestingDepth b = .ok pb)
include hw ht ha hb hpb

theorem parse_gap : parse s.settings.maxNestingDepth text =
    .ok (pa ++ pb.map (Statement.mapLines (· + (a.toList ++ [w]).count '\n'))) := by
  rw [parse_join hw ht ha hb, hpb]
  rfl

theorem run_gap : s.run text =
    match s.run a with
    | (.ok _, s₁) => s₁.perform (pb.map (Statement.mapLines (· + (a.toList ++ [w]).count '\n')))
    | (.error e, s₁) => (.error e, { s₁ with nextSerial := (numbered (pb.map
        (Statement.mapLines (· + (a.toList ++ [w]).count '\n'))) s₁.nextSerial).2 }) := by
  rw [run_of_ok (parse_gap hw ht ha hb hpb), run_of_ok ha]
  refine perform_append s pa ?_
  rw [flatMap_mapLines, mapLinesAll_eq]
  simpa using flatMap_ne_nil_of_parse hpb

/-- A first text that fails is all there is. -/
theorem run_gap_of_error {e : Error} (he : (s.run a).1 = .error e) :
    (s.run text).1 = .error e ∧ (s.run text).2.scope = (s.run a).2.scope := by
  rw [run_gap hw ht ha hb hpb]
  generalize s.run a = r at he
  obtain ⟨outcome, s₁⟩ := r
  simp only at he
  subst he
  exact ⟨rfl, rfl⟩

theorem run_gap_of_ok {v : Value Nat} (hv : (s.run a).1 = .ok v) :
    s.run text = (s.run a).2.perform
        (pb.map (Statement.mapLines (· + (a.toList ++ [w]).count '\n'))) ∧
      RunMoved (Raising ((a.toList ++ [w]).count '\n')) ((s.run a).2.run b) (s.run text) := by
  have hsettings : (s.run a).2.settings = s.settings := by
    rw [run_of_ok ha]
    exact settings_execute s pa
  have hrun := run_gap hw ht ha hb hpb
  generalize s.run a = r at hv hsettings hrun
  obtain ⟨outcome, s₁⟩ := r
  simp only at hv hsettings
  subst hv
  refine ⟨hrun, ?_⟩
  rw [hrun, run_of_ok (s := s₁) (by rw [hsettings]; exact hpb)]
  exact perform_mapLines (.inl rfl) (.inr rfl) s₁ pb

end

/-- Two texts joined by a line break run as they do one after the other, with the lines of the
second one raised; a second text that is no program keeps the first from running. Joined by a blank
behind a single line, not even lines tell the difference. -/
theorem run_join (s : Session) (a b : String) {pa : List (Statement Unit)}
    (ha : parse s.settings.maxNestingDepth a = .ok pa) (hb : scan b ≠ []) :
    (∀ pb, parse s.settings.maxNestingDepth b = .ok pb →
      parse s.settings.maxNestingDepth (a ++ "\n" ++ b) =
        .ok (pa ++ pb.map (Statement.mapLines (· + (1 + a.toList.count '\n')))) ∧
      (∀ e, (s.run a).1 = .error e → (s.run (a ++ "\n" ++ b)).1 = .error e ∧
        (s.run (a ++ "\n" ++ b)).2.scope = (s.run a).2.scope) ∧
      (∀ v, (s.run a).1 = .ok v →
        s.run (a ++ "\n" ++ b) = (s.run a).2.perform
            (pb.map (Statement.mapLines (· + (1 + a.toList.count '\n')))) ∧
          RunMoved (Raising (1 + a.toList.count '\n')) ((s.run a).2.run b)
            (s.run (a ++ "\n" ++ b))) ∧
      ('\n' ∉ a.toList →
        parse s.settings.maxNestingDepth (a ++ " " ++ b) = .ok (pa ++ pb) ∧
        (∀ e, (s.run a).1 = .error e → (s.run (a ++ " " ++ b)).1 = .error e ∧
          (s.run (a ++ " " ++ b)).2.scope = (s.run a).2.scope) ∧
        ∀ v, (s.run a).1 = .ok v → s.run (a ++ " " ++ b) = (s.run a).2.run b)) ∧
    ∀ e, parse s.settings.maxNestingDepth b = .error e →
      s.run (a ++ "\n" ++ b) =
        (.error (.syntaxError (e.mapLines (· + (1 + a.toList.count '\n')))), s) := by
  have hbreak : IsGap '\n' := .inr (.inr rfl)
  have hblank : IsGap ' ' := .inl rfl
  have htext : (a ++ "\n" ++ b).toList = a.toList ++ '\n' :: b.toList := by simp
  have htext' : (a ++ " " ++ b).toList = a.toList ++ ' ' :: b.toList := by simp
  have hcount : (a.toList ++ ['\n']).count '\n' = 1 + a.toList.count '\n' := by
    rw [List.count_append, List.count_singleton_self, Nat.add_comm]
  refine ⟨fun pb hpb => ⟨?_, ?_, ?_, fun hline => ?_⟩, fun e he => ?_⟩
  · rw [← hcount]
    exact parse_gap hbreak htext ha hb hpb
  · intro e he
    exact run_gap_of_error hbreak htext ha hb hpb he
  · intro v hv
    rw [← hcount]
    exact run_gap_of_ok hbreak htext ha hb hpb hv
  · have hcount' : (a.toList ++ [' ']).count '\n' = 0 := by
      rw [List.count_append, List.count_eq_zero_of_not_mem hline]
      rfl
    refine ⟨?_, fun e he => run_gap_of_error hblank htext' ha hb hpb he, fun v hv => ?_⟩
    · have h := parse_gap hblank htext' ha hb hpb
      have hmap : pb.map (Statement.mapLines (· + 0)) = pb :=
        (List.map_congr_left fun s _ => s.mapLines_id).trans (List.map_id _)
      rw [hcount', hmap] at h
      exact h
    · have h := (run_gap_of_ok hblank htext' ha hb hpb hv).2
      rw [hcount'] at h
      exact h.eq fun g hg => hg.eq_id
  · rw [← hcount]
    refine run_of_error ?_
    rw [parse_join hbreak htext ha hb, he]
    rfl

/-- A second line that is a program, and one that is none. -/
theorem run_join_two_lines :
    parse 256 ("x." ++ "\n" ++ "y.") = .ok [⟨[.var "x" 1], 1⟩, ⟨[.var "y" 2], 2⟩] ∧
      ({} : Session).run ("x." ++ "\n" ++ "(") =
        (.error (.syntaxError (.unexpectedEnd 2)), {}) := by
  have ha : parse 256 "x." = .ok [⟨[.var "x" 1], 1⟩] := by decide +kernel
  have hb : parse 256 "y." = .ok [⟨[.var "y" 1], 1⟩] := by decide +kernel
  have hopen : parse 256 "(" = .error (.unexpectedEnd 1) := by decide +kernel
  exact ⟨((run_join {} "x." "y." ha (by decide)).1 _ hb).1,
    (run_join {} "x." "(" ha (by decide)).2 _ hopen⟩

end Session

end Reckon
