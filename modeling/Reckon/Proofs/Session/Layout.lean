import Reckon.Proofs.Eval.Alike
import Reckon.Proofs.Session.Numbering

/-!
# Layout

Texts with the same tokens, however they are laid out on lines, are parsed alike and run alike
(`Session.run_layout`). Two sessions are compared up to lines and up to a relation `T` of the serial
numbers of their functions: where `T` is equality, functions keep their identity, and where it
relates everything, identity plays no part. All that is asked of `T` is that it relates the numbers
which the two sessions give out next.
-/

set_option autoImplicit false

namespace Reckon

/-- Both give results, which are related by `A`, or both fail, with errors related by `E`. -/
inductive OutcomeAlike {ε ε' α α' : Type} (E : ε → ε' → Prop) (A : α → α' → Prop) :
    Except ε α → Except ε' α' → Prop
  | ok {a : α} {a' : α'} : A a a' → OutcomeAlike E A (.ok a) (.ok a')
  | error {e : ε} {e' : ε'} : E e e' → OutcomeAlike E A (.error e) (.error e')

/-- The same tokens, whatever their lines. -/
def SameTokens (ts us : List Located) : Prop := ts.map Located.token = us.map Located.token

/-! ## Parsing -/

theorem SyntaxError.alike_of_mapLines {e e' : SyntaxError} {f g : Nat → Nat}
    (h : e.mapLines f = e'.mapLines g) : e.Alike e' := by
  refine ⟨e'.line, ?_⟩
  calc e' = (e'.mapLines g).mapLines fun _ => e'.line := by cases e' <;> rfl
    _ = (e.mapLines f).mapLines fun _ => e'.line := by rw [h]
    _ = e.mapLines fun _ => e'.line := by cases e <;> rfl

theorem Statement.alike_of_mapLines {f g : Nat → Nat} {p p' : List (Statement Unit)}
    (h : p.map (Statement.mapLines f) = p'.map (Statement.mapLines g)) :
    List.Forall₂ (Statement.Alike (.upToLines Eq)) p p' := by
  induction p generalizing p' with
  | nil =>
    cases p' with
    | nil => exact .nil
    | cons s' p' => cases h
  | cons s p ih =>
    cases p' with
    | nil => cases h
    | cons s' p' =>
      obtain ⟨hs, hp⟩ := List.cons.inj h
      exact .cons (alikeAll_of_mapLinesAll (Statement.mk.inj hs).1) (ih hp)

theorem SameTokens.mapLines_eq {ts us : List Located} (h : SameTokens ts us) (line : Nat) :
    ts.map (Located.mapLines fun _ => line) = us.map (Located.mapLines fun _ => line) := by
  have hmap : ∀ ts : List Located, ts.map (Located.mapLines fun _ => line) =
      (ts.map Located.token).map fun t => ⟨t, line⟩ := by
    intro ts
    rw [List.map_map]
    rfl
  rw [hmap, hmap, h]

theorem parseTokens_alike {limit : Nat} {ts us : List Located} (h : SameTokens ts us) :
    OutcomeAlike SyntaxError.Alike (List.Forall₂ (Statement.Alike (.upToLines Eq)))
      (parseTokens limit ts) (parseTokens limit us) := by
  -- moved to one line, the tokens are the same, and so is what the parser does with them
  have hts := Parser.statements_mapLines (f := fun _ => 1) ⟨limit, endLine ts⟩ ⟨ts, 0⟩
  have hus := Parser.statements_mapLines (f := fun _ => 1) ⟨limit, endLine us⟩ ⟨us, 0⟩
  simp only [Bounds.mapLines, Cursor.mapLines, h.mapLines_eq] at hts hus
  rw [hts] at hus
  cases hp : Parser.statements ⟨limit, endLine ts⟩ ⟨ts, 0⟩ with
  | ok p c =>
    cases hq : Parser.statements ⟨limit, endLine us⟩ ⟨us, 0⟩ with
    | ok q c' =>
      rw [hp, hq] at hus
      rw [parseTokens_of_ok hp, parseTokens_of_ok hq]
      exact .ok (Statement.alike_of_mapLines (EStateM.Result.ok.inj hus).1)
    | error e' c' => rw [hp, hq] at hus; cases hus
  | error e c =>
    cases hq : Parser.statements ⟨limit, endLine us⟩ ⟨us, 0⟩ with
    | ok q c' => rw [hp, hq] at hus; cases hus
    | error e' c' =>
      rw [hp, hq] at hus
      rw [parseTokens_of_error hp, parseTokens_of_error hq]
      exact .error (SyntaxError.alike_of_mapLines (EStateM.Result.error.inj hus).1)

theorem parse_alike {limit : Nat} {a b : String}
    (h : OutcomeAlike SyntaxError.Alike SameTokens (tokenize a) (tokenize b)) :
    OutcomeAlike SyntaxError.Alike (List.Forall₂ (Statement.Alike (.upToLines Eq)))
      (parse limit a) (parse limit b) := by
  unfold parse
  generalize tokenize a = r, tokenize b = r' at h
  cases h with
  | ok hts => exact parseTokens_alike hts
  | error he => exact .error he

/-! ## Sessions -/

namespace Session

/-- The same settings, and scopes that differ in lines and, as far as `T` allows, in serial numbers.
-/
structure Alike (T : Nat → Nat → Prop) (s s' : Session) : Prop where
  settings : s'.settings = s.settings
  serials : Aligned T s.nextSerial s'.nextSerial
  scope : s.scope.Alike (.upToLines T) s'.scope

variable {T : Nat → Nat → Prop} {s s' : Session}

theorem perform_alike (hs : s.Alike T s') {K : Likeness Unit Unit} {p p' : List (Statement Unit)}
    (hp : List.Forall₂ (Statement.Alike K) p p') :
    OutcomeAlike Error.Alike (Value.Alike (.upToLines T)) (s.perform p).1 (s'.perform p').1 ∧
      (s.perform p).2.Alike T (s'.perform p').2 := by
  have hnumbered := numbered_alike hp hs.serials
  have hnext : Aligned T (numbered p s.nextSerial).2 (numbered p' s'.nextSerial).2 :=
    hs.serials.next (consecutive_numbered p _) (consecutive_numbered p' _)
      (alikeAll_flatMap hnumbered).literals
  have hr := alike_evalStatements s.settings hnumbered { scope := s.scope } { scope := s'.scope }
    ⟨rfl, hs.scope⟩
  unfold perform
  rw [execute_eq, execute_eq, hs.settings]
  generalize evalStatements s.settings (numbered p s.nextSerial).1 { scope := s.scope } = r,
    evalStatements s.settings (numbered p' s'.nextSerial).1 { scope := s'.scope } = r' at hr
  cases hr with
  | ok hv hm => exact ⟨.ok hv, rfl, hnext, hm.scope⟩
  | error he hm =>
    obtain ⟨line, -, rfl⟩ := he
    exact ⟨.error ⟨line, rfl⟩, rfl, hnext, hm.scope⟩

/-- Texts with the same tokens are the same program up to lines, or fail for the same reason; run in
sessions that differ in lines only, they come to the same outcome and to sessions that differ in
lines only. -/
theorem run_layout (hs : s.Alike T s') {a b : String}
    (hab : OutcomeAlike SyntaxError.Alike SameTokens (tokenize a) (tokenize b)) :
    OutcomeAlike SyntaxError.Alike (List.Forall₂ (Statement.Alike (.upToLines Eq)))
        (parse s.settings.maxNestingDepth a) (parse s'.settings.maxNestingDepth b) ∧
      OutcomeAlike Error.Alike (Value.Alike (.upToLines T)) (s.run a).1 (s'.run b).1 ∧
      (s.run a).2.Alike T (s'.run b).2 := by
  have hparse : OutcomeAlike SyntaxError.Alike (List.Forall₂ (Statement.Alike (.upToLines Eq)))
      (parse s.settings.maxNestingDepth a) (parse s'.settings.maxNestingDepth b) := by
    rw [hs.settings]
    exact parse_alike hab
  refine ⟨hparse, ?_⟩
  cases ha : parse s.settings.maxNestingDepth a with
  | ok p =>
    cases hb : parse s'.settings.maxNestingDepth b with
    | ok p' =>
      rw [ha, hb] at hparse
      rw [run_of_ok ha, run_of_ok hb]
      cases hparse with
      | ok hp => exact perform_alike hs hp
    | error e' => rw [ha, hb] at hparse; cases hparse
  | error e =>
    cases hb : parse s'.settings.maxNestingDepth b with
    | ok p' => rw [ha, hb] at hparse; cases hparse
    | error e' =>
      rw [ha, hb] at hparse
      rw [run_of_error ha, run_of_error hb]
      cases hparse with
      | error he =>
        obtain ⟨line, rfl⟩ := he
        exact ⟨.error ⟨line, rfl⟩, hs⟩

/-- A line break before a function literal moves the function to the next line. -/
theorem run_layout_next_line :
    (({} : Session).run "x=fun()->end.").1 = .ok (.function ⟨0, [], [], 1⟩) ∧
      (({} : Session).run "x=\nfun()->end.").1 = .ok (.function ⟨0, [], [], 2⟩) ∧
      Alike Eq (({} : Session).run "x=fun()->end.").2 (({} : Session).run "x=\nfun()->end.").2 := by
  have hempty : Alike Eq {} {} := ⟨rfl, fun _ => rfl, .empty, .nil⟩
  have ha : tokenize "x=fun()->end." = .ok [⟨.name "x", 1⟩, ⟨.mark .equals, 1⟩,
      ⟨.mark .function, 1⟩, ⟨.mark .openParen, 1⟩, ⟨.mark .closeParen, 1⟩, ⟨.mark .arrow, 1⟩,
      ⟨.mark .finish, 1⟩, ⟨.mark .dot, 1⟩] := by decide +kernel
  have hb : tokenize "x=\nfun()->end." = .ok [⟨.name "x", 1⟩, ⟨.mark .equals, 1⟩,
      ⟨.mark .function, 2⟩, ⟨.mark .openParen, 2⟩, ⟨.mark .closeParen, 2⟩, ⟨.mark .arrow, 2⟩,
      ⟨.mark .finish, 2⟩, ⟨.mark .dot, 2⟩] := by decide +kernel
  refine ⟨by decide +kernel, by decide +kernel, (run_layout hempty ?_).2.2⟩
  rw [ha, hb]
  exact .ok rfl

end Session

end Reckon
