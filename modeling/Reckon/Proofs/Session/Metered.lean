import Reckon.Proofs.Eval.Metered
import Reckon.Proofs.Session.Compose

/-!
# Sessions under a meter

The settings alone bound how deep evaluations are nested, whatever a session has run before and
however long its texts are (`Session.statements_metered`). Every function that a session knows comes
from a text that was parsed under the same nesting limit, so that no body is higher than the limit
allows (`Session.Shallow`); this holds of a new session and after every run, failed ones included
(`Session.Shallow.run`), and hence after any number of them.
-/

set_option autoImplicit false

namespace Reckon

theorem heightAll_numbered {τ : Type} (program : List (Statement τ)) (n : Nat) :
    heightAll ((numbered program n).1.flatMap Statement.expressions) =
      heightAll (program.flatMap Statement.expressions) := by
  induction program generalizing n with
  | nil => rfl
  | cons s program ih =>
    have hs : heightAll (s.serial.run n).1.expressions = heightAll s.expressions :=
      heightAll_serialAll s.expressions n
    rw [numbered_cons, List.flatMap_cons, List.flatMap_cons, heightAll_append, heightAll_append,
      hs, ih]

namespace Session

/-- The session after source texts, one after another. -/
def runAll (s : Session) (sources : List String) : Session :=
  sources.foldl (fun s source => (s.run source).2) s

@[simp] theorem settings_run (s : Session) (source : String) :
    (s.run source).2.settings = s.settings := by
  cases h : parse s.settings.maxNestingDepth source with
  | error e => rw [run_of_error h]
  | ok program =>
    rw [run_of_ok h]
    exact settings_execute s program

/-- What every run keeps is kept by all of them. -/
theorem runAll_induction {P : Session → Prop} (hrun : ∀ s source, P s → P (s.run source).2)
    {s : Session} (hs : P s) (sources : List String) : P (s.runAll sources) := by
  unfold runAll
  induction sources generalizing s with
  | nil => exact hs
  | cons source sources ih => exact ih (hrun s source hs)

@[simp] theorem settings_runAll (s : Session) (sources : List String) :
    (s.runAll sources).settings = s.settings :=
  runAll_induction (P := fun t => t.settings = s.settings)
    (fun t source ht => (settings_run t source).trans ht) rfl sources

/-- No function of the session has a higher body than a source text can have. -/
def Shallow (s : Session) : Prop :=
  s.scope.All (Value.Shallow (tallest s.settings.maxNestingDepth))

theorem meets_evalStatements {s : Session} {source : String} {program : List (Statement Unit)}
    (h : parse s.settings.maxNestingDepth source = .ok program) {n : Nat}
    (hn : (s.settings.maxCallDepth + 1) * tallest s.settings.maxNestingDepth ≤ n) :
    Metered.Meets (tallest s.settings.maxNestingDepth) 0
      (Value.Shallow (tallest s.settings.maxNestingDepth))
      (evalStatements s.settings (numbered program s.nextSerial).1)
      (Metered.statements s.settings n (numbered program s.nextSerial).1) := by
  refine Metered.meets_evalStatements ?_ hn
  rw [heightAll_numbered]
  exact height_le_of_parse h

theorem scope_execute (s : Session) (program : List (Statement Unit)) :
    (s.execute program).2.scope =
      (Eval.after (evalStatements s.settings (numbered program s.nextSerial).1)
        { scope := s.scope }).scope := by
  rw [execute_eq, Eval.after]
  cases evalStatements s.settings (numbered program s.nextSerial).1 { scope := s.scope } <;> rfl

theorem Shallow.run {s : Session} (hs : s.Shallow) (source : String) :
    (s.run source).2.Shallow := by
  unfold Shallow
  rw [settings_run]
  cases h : parse s.settings.maxNestingDepth source with
  | error e =>
    rw [run_of_error h]
    exact hs
  | ok program =>
    rw [run_of_ok h]
    simp only [perform]
    rw [scope_execute]
    exact (meets_evalStatements h (Nat.le_refl _)).scope_after hs

/-- After any source texts, a program of a session is evaluated with a number of evaluations inside
one another that the settings fix: a meter set to it does not run out and changes nothing. -/
theorem statements_metered (settings : Settings) (sources : List String) {source : String}
    {program : List (Statement Unit)}
    (h : parse settings.maxNestingDepth source = .ok program) :
    let s := runAll { settings := settings } sources
    let units := (settings.maxCallDepth + 1) *
      (1 + settings.maxNestingDepth * (settings.maxNestingDepth - 1) / 2)
    let program := (numbered program s.nextSerial).1
    let m : Machine Nat := { scope := s.scope }
    Metered.statements settings units program m = (evalStatements settings program).metered m ∧
      ∀ m', Metered.statements settings units program m ≠ .error .exhausted m' := by
  intro s units program m
  have hsettings : s.settings = settings := settings_runAll _ sources
  have hs : s.Shallow := runAll_induction (fun t source ht => ht.run source) Scope.All.empty sources
  have hunits : (s.settings.maxCallDepth + 1) * tallest s.settings.maxNestingDepth ≤ units := by
    rw [hsettings]
    exact Nat.mul_le_mul_left _ (tallest_le _)
  have heq : Metered.statements settings units program m =
      (evalStatements settings program).metered m := by
    have hmeets := meets_evalStatements (by rw [hsettings]; exact h) hunits
    rw [hsettings] at hmeets
    exact hmeets.eq_metered (m := m) (hsettings ▸ hs)
  refine ⟨heq, fun m' hm' => ?_⟩
  rw [heq, Eval.metered] at hm'
  split at hm' <;> cases hm'

/-- A call of a function that an earlier text has left. -/
theorem statements_metered_call :
    let s := runAll { settings := ⟨4, 1, .ieee⟩ } ["f=fun(x)->x end."]
    parse 4 "f(y)." = .ok [⟨[.call "f" [.var "y" 1] 1], 1⟩] ∧
      (s.run "f(y).").1 = .ok (.number 0) ∧
      Metered.statements ⟨4, 1, .ieee⟩ 14 [⟨[.call "f" [.var "y" 1] 1], 1⟩] { scope := s.scope } =
        (evalStatements ⟨4, 1, .ieee⟩ [⟨[.call "f" [.var "y" 1] 1], 1⟩]).metered
          { scope := s.scope } := by
  have h : parse 4 "f(y)." = .ok [⟨[.call "f" [.var "y" 1] 1], 1⟩] := by decide +kernel
  have hrun : ((runAll { settings := ⟨4, 1, .ieee⟩ } ["f=fun(x)->x end."]).run "f(y).").1 =
      .ok (.number 0) := by decide +kernel
  exact ⟨h, hrun, (statements_metered ⟨4, 1, .ieee⟩ ["f=fun(x)->x end."] h).1⟩

end Session

end Reckon
