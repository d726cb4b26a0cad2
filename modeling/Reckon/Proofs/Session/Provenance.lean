import Mathlib.Order.Monotone.Basic
import Reckon.Proofs.Eval.Alike
import Reckon.Proofs.Scope
import Reckon.Proofs.Session.Metered
import Reckon.Proofs.Session.Numbering

/-!
# Where functions come from

A session makes one function for each occurrence of a function literal in the programs that it has
parsed. Evaluation makes no others and changes none: every function that is bound or returned is
that of an occurrence, and two of them are the same exactly if their occurrences are
(`Session.functions_stem`).

That evaluation makes no functions is a property of functions that it keeps: one that goes over to
the literals in the body (`Closed`), and that the literals of the program have (`run_keeps`). It
comes from running the program against itself, under the likeness `Likeness.keeping`.
-/

set_option autoImplicit false

namespace Reckon

/-! ## Literals inside literals -/

section
variable {τ : Type} {f g : Function τ}

mutual

theorem Expr.mem_literals_of_mem_body : ∀ {e : Expr τ}, f ∈ e.literals → g ∈ literalsAll f.body →
    g ∈ e.literals
  | .arithmetic .., hf, hg => by
    rw [Expr.literals, List.mem_append] at hf ⊢
    exact hf.imp (Expr.mem_literals_of_mem_body · hg) (Expr.mem_literals_of_mem_body · hg)
  | .assign .., hf, hg => by
    rw [Expr.literals] at hf ⊢
    exact Expr.mem_literals_of_mem_body hf hg
  | .function .., hf, hg => by
    rw [Expr.literals, List.mem_cons] at hf ⊢
    rcases hf with rfl | hf
    · exact .inr hg
    · exact .inr (mem_literalsAll_of_mem_body hf hg)
  | .call .., hf, hg => by
    rw [Expr.literals] at hf ⊢
    exact mem_literalsAll_of_mem_body hf hg

theorem mem_literalsAll_of_mem_body : ∀ {es : List (Expr τ)}, f ∈ literalsAll es →
    g ∈ literalsAll f.body → g ∈ literalsAll es
  | _ :: _, hf, hg => by
    rw [literalsAll, List.mem_append] at hf ⊢
    exact hf.imp (Expr.mem_literals_of_mem_body · hg) (mem_literalsAll_of_mem_body · hg)

end

/-- The property goes over to the function literals in the body. -/
def Closed (P : Function τ → Prop) : Prop := ∀ f, P f → ∀ g ∈ literalsAll f.body, P g

end

/-! ## What evaluation keeps -/

section
variable {τ : Type} {P : Function τ → Prop}

/-- A function with the property, or no function. -/
def Value.FunctionIn (P : Function τ → Prop) : Value τ → Prop
  | .number _ => True
  | .function f => P f

/-- Trees are like themselves, if their function literals have the property. -/
def Likeness.keeping (P : Function τ → Prop) : Likeness τ τ where
  names _ := True
  lines := Eq
  functions f _ := P f

mutual

theorem Expr.alike_self : ∀ {e : Expr τ}, (∀ f ∈ e.literals, P f) → e.Alike (.keeping P) e
  | .number .., _ => .number rfl
  | .var .., _ => .var trivial rfl
  | .arithmetic .., h => by
    rw [Expr.literals, List.forall_mem_append] at h
    exact .arithmetic (Expr.alike_self h.1) (Expr.alike_self h.2) rfl
  | .assign .., h => .assign trivial (Expr.alike_self h) rfl
  | .function .., h => by
    rw [Expr.literals, List.forall_mem_cons] at h
    exact .function h.1 (fun _ _ => trivial) (alikeAll_self h.2) rfl
  | .call .., h => .call trivial (alikeAll_self h) rfl

theorem alikeAll_self : ∀ {es : List (Expr τ)}, (∀ f ∈ literalsAll es, P f) →
    AlikeAll (.keeping P) es es
  | [], _ => .nil
  | _ :: _, h => by
    rw [literalsAll, List.forall_mem_append] at h
    exact .cons (Expr.alike_self h.1) (alikeAll_self h.2)

end

theorem forall₂_alike_self {program : List (Statement τ)}
    (h : ∀ f ∈ programLiterals program, P f) :
    List.Forall₂ (Statement.Alike (.keeping P)) program program := by
  induction program with
  | nil => exact .nil
  | cons s program ih =>
    rw [programLiterals_cons, List.forall_mem_append] at h
    exact .cons (alikeAll_self h.1) (ih h.2)

theorem Value.alike_self (hP : Closed P) {v : Value τ} (h : v.FunctionIn P) :
    v.Alike (.keeping P) v := by
  cases v with
  | number x => exact .number x
  | function f => exact .function ⟨h, rfl, fun _ _ => trivial, alikeAll_self (hP f h), rfl⟩

theorem Value.Alike.functionIn {v v' : Value τ} (h : v.Alike (.keeping P) v') :
    v.FunctionIn P := by
  cases h with
  | number x => trivial
  | function hf => exact hf.related

theorem Table.alike_self (hP : Closed P) {t : Table τ} (h : t.All (Value.FunctionIn P)) :
    t.Alike (.keeping P) t := by
  intro name _
  cases hv : t[name]? with
  | none => exact .none
  | some v => exact .some (Value.alike_self hP (h name v hv))

theorem Table.Alike.all {t t' : Table τ} (h : t.Alike (.keeping P) t') :
    t.All (Value.FunctionIn P) := by
  intro name v hv
  have hbound := h name trivial
  rw [hv] at hbound
  generalize t'[name]? = o at hbound
  cases hbound with
  | some hv' => exact hv'.functionIn

theorem Scope.alike_self (hP : Closed P) {s : Scope τ} (h : s.All (Value.FunctionIn P)) :
    s.Alike (.keeping P) s :=
  ⟨Table.alike_self hP h.locals, List.forall₂_same.2 fun t ht => Table.alike_self hP (h.outer t ht)⟩

theorem Scope.Alike.all {s : Scope τ} (h : s.Alike (.keeping P) s) :
    s.All (Value.FunctionIn P) :=
  ⟨h.locals.all, fun t ht => (List.forall₂_same.1 h.outer t ht).all⟩

end

/-! ## The functions of a source text -/

/-- The function literals of a source text, if it is a program. -/
def sourceLiterals (limit : Nat) (source : String) : List (Function Unit) :=
  match parse limit source with
  | .ok program => programLiterals program
  | .error _ => []

namespace Session

/-- The functions that a session makes of a source text, one for each function literal. -/
def makes (s : Session) (source : String) : List (Function Nat) :=
  match parse s.settings.maxNestingDepth source with
  | .ok program => programLiterals (numbered program s.nextSerial).1
  | .error _ => []

section
variable (s : Session) (source : String)

/-- What is made of a literal has its parameters, its body and its line. -/
theorem makes_alike : List.Forall₂ (Function.Alike .upToTags)
    (sourceLiterals s.settings.maxNestingDepth source) (s.makes source) := by
  unfold sourceLiterals makes
  cases parse s.settings.maxNestingDepth source with
  | ok program => exact (alikeAll_flatMap (alike_numbered program _)).literals
  | error e => exact .nil

theorem consecutive_makes :
    Consecutive s.nextSerial (s.makes source) (s.run source).2.nextSerial := by
  unfold makes
  cases h : parse s.settings.maxNestingDepth source with
  | ok program =>
    have hnext : (s.perform program).2.nextSerial = (numbered program s.nextSerial).2 := by
      rw [perform, execute_eq]
      split <;> rfl
    rw [run_of_ok h, hnext]
    exact consecutive_numbered program s.nextSerial
  | error e =>
    rw [run_of_error h]
    exact .nil _

theorem makes_mem_of_mem_body {f g : Function Nat} (hf : f ∈ s.makes source)
    (hg : g ∈ literalsAll f.body) : g ∈ s.makes source := by
  unfold makes at hf ⊢
  cases h : parse s.settings.maxNestingDepth source with
  | ok program =>
    rw [h] at hf
    exact mem_literalsAll_of_mem_body hf hg
  | error e =>
    rw [h] at hf
    cases hf

end

section
variable {s : Session} {P : Function Nat → Prop}

theorem perform_keeps (hP : Closed P) {program : List (Statement Unit)}
    (hprogram : ∀ f ∈ programLiterals (numbered program s.nextSerial).1, P f)
    (hs : s.scope.All (Value.FunctionIn P)) :
    (∀ v, (s.perform program).1 = .ok v → v.FunctionIn P) ∧
      (s.perform program).2.scope.All (Value.FunctionIn P) := by
  have hscope := Scope.alike_self hP hs
  have hr := alike_evalStatements s.settings (forall₂_alike_self hprogram) { scope := s.scope }
    { scope := s.scope } ⟨rfl, hscope⟩
  unfold perform
  rw [execute_eq]
  cases h : evalStatements s.settings (numbered program s.nextSerial).1 { scope := s.scope } with
  | ok v m =>
    rw [h] at hr
    cases hr with
    | ok hv hm =>
      refine ⟨fun w hw => ?_, hm.scope.all⟩
      cases hw
      exact hv.functionIn
  | error e m =>
    rw [h] at hr
    cases hr with
    | error _ hm => exact ⟨fun w hw => (by cases hw), hm.scope.all⟩

/-- A run keeps a property of all functions that those which it makes have too. -/
theorem run_keeps (hP : Closed P) {source : String} (hmakes : ∀ f ∈ s.makes source, P f)
    (hs : s.scope.All (Value.FunctionIn P)) :
    (∀ v, (s.run source).1 = .ok v → v.FunctionIn P) ∧
      (s.run source).2.scope.All (Value.FunctionIn P) := by
  unfold makes at hmakes
  cases h : parse s.settings.maxNestingDepth source with
  | ok program =>
    rw [h] at hmakes
    rw [run_of_ok h]
    exact perform_keeps hP hmakes hs
  | error e =>
    rw [run_of_error h]
    exact ⟨fun v hv => (by cases hv), hs⟩

end

end Session

/-! ## Occurrences -/

/-- A function literal by its place: the number of the source text, and the number of the literal
among those of the text. -/
structure Occurrence where
  step : Nat
  index : Nat
deriving DecidableEq, Repr

section
variable (settings : Settings) (sources : List String)

/-- The session that has run the first `n` source texts. -/
def Session.stage (n : Nat) : Session := Session.runAll { settings } (sources.take n)

/-- The literal that stands there in the parsed text. -/
def Occurrence.literal? (o : Occurrence) : Option (Function Unit) := do
  let source ← sources[o.step]?
  (sourceLiterals settings.maxNestingDepth source)[o.index]?

/-- The function that the session has made of it. -/
def Occurrence.object? (o : Occurrence) : Option (Function Nat) := do
  let source ← sources[o.step]?
  ((Session.stage settings sources o.step).makes source)[o.index]?

end

section
variable {settings : Settings} {sources : List String}

theorem Session.stage_succ {n : Nat} {source : String} (h : sources[n]? = some source) :
    stage settings sources (n + 1) = ((stage settings sources n).run source).2 := by
  unfold stage runAll
  rw [List.take_add_one, h, List.foldl_append]
  rfl

theorem Session.stage_succ_of_none {n : Nat} (h : sources[n]? = none) :
    stage settings sources (n + 1) = stage settings sources n := by
  unfold stage
  rw [List.take_add_one, h, Option.toList_none, List.append_nil]

@[simp] theorem Session.settings_stage (n : Nat) :
    (stage settings sources n).settings = settings :=
  settings_runAll _ _

namespace Occurrence

variable {o o' : Occurrence} {f f' : Function Nat}

theorem object?_eq_some_iff : o.object? settings sources = some f ↔
    ∃ source, sources[o.step]? = some source ∧
      ((Session.stage settings sources o.step).makes source)[o.index]? = some f :=
  Option.bind_eq_some_iff

theorem alike_object? (o : Occurrence) : Option.Rel (Function.Alike .upToTags)
    (o.literal? settings sources) (o.object? settings sources) := by
  unfold literal? object?
  cases sources[o.step]? with
  | none => exact .none
  | some source =>
    have hmakes := (Session.stage settings sources o.step).makes_alike source
    rw [Session.settings_stage] at hmakes
    exact forall₂_getElem? hmakes o.index

/-- The serial number of a function lies between the numbers that are free before and after its
step. -/
theorem tag_eq (h : o.object? settings sources = some f) :
    f.tag = (Session.stage settings sources o.step).nextSerial + o.index ∧
      f.tag < (Session.stage settings sources (o.step + 1)).nextSerial := by
  obtain ⟨source, hsource, hf⟩ := object?_eq_some_iff.1 h
  have hmakes := (Session.stage settings sources o.step).consecutive_makes source
  have hindex : o.index < _ := (List.getElem?_eq_some_iff.1 hf).1
  have htag := hmakes.tag_eq hf
  refine ⟨htag, ?_⟩
  rw [Session.stage_succ hsource, hmakes.next, htag]
  omega

theorem nextSerial_mono : Monotone fun n => (Session.stage settings sources n).nextSerial := by
  refine monotone_nat_of_le_succ fun n => ?_
  cases h : sources[n]? with
  | none => rw [Session.stage_succ_of_none h]
  | some source =>
    rw [Session.stage_succ h, ((Session.stage settings sources n).consecutive_makes source).next]
    exact Nat.le_add_right ..

theorem tag_lt (h : o.object? settings sources = some f)
    (h' : o'.object? settings sources = some f') (hlt : o.step < o'.step) : f.tag < f'.tag := by
  calc f.tag < (Session.stage settings sources (o.step + 1)).nextSerial := (tag_eq h).2
    _ ≤ (Session.stage settings sources o'.step).nextSerial := nextSerial_mono hlt
    _ ≤ f'.tag := by rw [(tag_eq h').1]; exact Nat.le_add_right ..

/-- No two occurrences have one serial number. -/
theorem tag_inj (h : o.object? settings sources = some f)
    (h' : o'.object? settings sources = some f') : f.tag = f'.tag ↔ o = o' := by
  constructor
  · intro htag
    have hstep : o.step = o'.step := by
      rcases Nat.lt_trichotomy o.step o'.step with hlt | heq | hlt
      · have := tag_lt h h' hlt
        omega
      · exact heq
      · have := tag_lt h' h hlt
        omega
    have hindex := (tag_eq h).1
    rw [htag, (tag_eq h').1, hstep] at hindex
    obtain ⟨step, index⟩ := o
    obtain ⟨step', index'⟩ := o'
    simp only at hstep hindex
    rw [hstep, show index = index' by omega]
  · intro ho
    subst ho
    rw [Option.some.inj (h.symm.trans h')]

end Occurrence

/-! ## Functions of a session -/

/-- The function is that of an occurrence in one of the first `n` source texts. -/
def Stems (settings : Settings) (sources : List String) (n : Nat) (f : Function Nat) : Prop :=
  ∃ o : Occurrence, o.step < n ∧ o.object? settings sources = some f

theorem stems_iff {n : Nat} {f : Function Nat} : Stems settings sources n f ↔
    ∃ i < n, ∃ source, sources[i]? = some source ∧
      f ∈ (Session.stage settings sources i).makes source := by
  constructor
  · intro ⟨o, hstep, ho⟩
    obtain ⟨source, hsource, hf⟩ := Occurrence.object?_eq_some_iff.1 ho
    exact ⟨o.step, hstep, source, hsource, List.mem_of_getElem? hf⟩
  · intro ⟨i, hi, source, hsource, hf⟩
    obtain ⟨k, hk⟩ := List.mem_iff_getElem?.1 hf
    exact ⟨⟨i, k⟩, hi, Occurrence.object?_eq_some_iff.2 ⟨source, hsource, hk⟩⟩

theorem Stems.mono {n m : Nat} (h : n ≤ m) {f : Function Nat} (hf : Stems settings sources n f) :
    Stems settings sources m f := by
  obtain ⟨o, hstep, ho⟩ := hf
  exact ⟨o, Nat.lt_of_lt_of_le hstep h, ho⟩

theorem closed_stems (n : Nat) : Closed (Stems settings sources n) := by
  intro f hf g hg
  obtain ⟨i, hi, source, hsource, hmem⟩ := stems_iff.1 hf
  exact stems_iff.2 ⟨i, hi, source, hsource, Session.makes_mem_of_mem_body _ source hmem hg⟩

theorem Value.FunctionIn.mono {τ : Type} {P Q : Function τ → Prop} (h : ∀ f, P f → Q f)
    {v : Value τ} (hv : v.FunctionIn P) : v.FunctionIn Q := by
  cases v with
  | number x => trivial
  | function f => exact h f hv

namespace Session

/-- One run: what was bound stays what it is, and what is new comes from the text. -/
theorem stems_run {n : Nat} {source : String} (hsource : sources[n]? = some source)
    (h : (stage settings sources n).scope.All (Value.FunctionIn (Stems settings sources n))) :
    (∀ v, ((stage settings sources n).run source).1 = .ok v →
        v.FunctionIn (Stems settings sources (n + 1))) ∧
      ((stage settings sources n).run source).2.scope.All
        (Value.FunctionIn (Stems settings sources (n + 1))) := by
  refine run_keeps (closed_stems (n + 1)) (fun f hf => ?_) ?_
  · exact stems_iff.2 ⟨n, Nat.lt_succ_self n, source, hsource, hf⟩
  · exact h.imp fun v hv => hv.mono fun f hf => hf.mono (Nat.le_succ n)

theorem stems_stage (n : Nat) :
    (stage settings sources n).scope.All (Value.FunctionIn (Stems settings sources n)) := by
  induction n with
  | zero => exact .empty
  | succ n ih =>
    cases h : sources[n]? with
    | some source =>
      rw [stage_succ h]
      exact (stems_run h ih).2
    | none =>
      rw [stage_succ_of_none h]
      exact ih.imp fun v hv => hv.mono fun f hf => hf.mono (Nat.le_succ n)

/-- Every function that is bound after some source texts, or returned by one, is the function of a
literal that occurs in a text run so far, with its parameters, body and line; and two functions are
the same exactly if they are those of one occurrence. -/
theorem functions_stem (settings : Settings) (sources : List String) :
    (∀ n name f, (stage settings sources n).scope.getLocal? name = some (.function f) →
      ∃ o : Occurrence, o.step < n ∧ o.object? settings sources = some f) ∧
    (∀ n source f, sources[n]? = some source →
      ((stage settings sources n).run source).1 = .ok (.function f) →
      ∃ o : Occurrence, o.step ≤ n ∧ o.object? settings sources = some f) ∧
    (∀ o : Occurrence, Option.Rel (Function.Alike .upToTags) (o.literal? settings sources)
      (o.object? settings sources)) ∧
    ∀ (o o' : Occurrence) f f', o.object? settings sources = some f →
      o'.object? settings sources = some f' →
      ((Value.function f).same (.function f') = true ↔ o = o') := by
  refine ⟨fun n name f hf => (stems_stage n).locals name _ hf, fun n source f hsource hf => ?_,
    Occurrence.alike_object?, fun o o' f f' ho ho' => ?_⟩
  · obtain ⟨o, hstep, ho⟩ := (stems_run hsource (stems_stage n)).1 _ hf
    exact ⟨o, Nat.le_of_lt_succ hstep, ho⟩
  · rw [Value.same, decide_eq_true_iff]
    exact Occurrence.tag_inj ho ho'

/-- Two literals with the same text are two functions. -/
theorem functions_stem_twins :
    let sources := ["f=fun()->end,fun()->end."]
    Occurrence.object? {} sources ⟨0, 0⟩ = some ⟨0, [], [], 1⟩ ∧
      Occurrence.object? {} sources ⟨0, 1⟩ = some ⟨1, [], [], 1⟩ ∧
      ¬ (Value.function (⟨0, [], [], 1⟩ : Function Nat)).same (.function ⟨1, [], [], 1⟩) := by
  intro sources
  have h : Occurrence.object? {} sources ⟨0, 0⟩ = some ⟨0, [], [], 1⟩ := by decide +kernel
  have h' : Occurrence.object? {} sources ⟨0, 1⟩ = some ⟨1, [], [], 1⟩ := by decide +kernel
  have hsame := (functions_stem {} sources).2.2.2 _ _ _ _ h h'
  exact ⟨h, h', mt hsame.1 (by decide)⟩

end Session

end

end Reckon
