import Reckon.Proofs.Eval.Alike
import Reckon.Proofs.Eval.Footprint

/-!
# Names that are not mentioned

A name that occurs neither in an expression nor in the functions that it may come to call plays no
part in its evaluation (`eval_unmentioned`). The functions that are called come from the scope, are
handed on as arguments and are given back as values; none of them mentions the name, because trees
and scopes are like themselves apart from it (`Likeness.apartFrom`), and evaluation keeps what is
alike.
-/

set_option autoImplicit false

namespace Reckon

section
variable {τ : Type}

mutual

/-- All names that occur in an expression, those in its function literals included. -/
def Expr.names : Expr τ → List String
  | .number .. => []
  | .var name _ => [name]
  | .arithmetic _ left right _ => left.names ++ right.names
  | .assign name value _ => name :: value.names
  | .function _ params body _ => params ++ namesAll body
  | .call name arguments _ => name :: namesAll arguments

def namesAll : List (Expr τ) → List String
  | [] => []
  | e :: es => e.names ++ namesAll es

end

/-- The names of the parameters and in the body. -/
def Function.names (f : Function τ) : List String := f.params ++ namesAll f.body

def Statement.names (s : Statement τ) : List String := namesAll s.expressions

/-- The value is not a function that mentions the name. -/
def Value.Avoids (x : String) : Value τ → Prop
  | .number _ => True
  | .function f => x ∉ f.names

/-- No function that is bound to another name mentions the name. -/
def Table.Avoids (x : String) (t : Table τ) : Prop :=
  ∀ name v, name ≠ x → t[name]? = some v → v.Avoids x

@[inherit_doc Table.Avoids]
def Scope.Avoids (x : String) (s : Scope τ) : Prop :=
  ∀ t ∈ s.locals :: s.outer, Table.Avoids x t

/-- The same bindings, but for those of one name. -/
def Table.SameBut (x : String) (t t' : Table τ) : Prop := ∀ name, name ≠ x → t'[name]? = t[name]?

@[inherit_doc Table.SameBut]
def Scope.SameBut (x : String) (s s' : Scope τ) : Prop :=
  List.Forall₂ (Table.SameBut x) (s.locals :: s.outer) (s'.locals :: s'.outer)

/-- What the tables say about one name, from the innermost table outwards. -/
def Scope.column (s : Scope τ) (x : String) : List (Option (Value τ)) :=
  (s.locals :: s.outer).map fun t => t[x]?

/-- Started in two machines, a computation ends alike, with scopes that differ in the bindings of one
name only, and those it leaves as they were. -/
structure Eval.Unmoved {α : Type} (x : String) (m m' : Machine τ) (p : Eval τ α) : Prop where
  alike : EndsAlike (fun n n' => n.scope.SameBut x n'.scope) Eq Eq (p m) (p m')
  left : (Eval.after p m).scope.column x = m.scope.column x
  right : (Eval.after p m').scope.column x = m'.scope.column x

/-! ## Trees and scopes apart from a name -/

/-- Trees are like themselves if the name does not occur in them. -/
def Likeness.apartFrom (x : String) : Likeness τ τ where
  names name := name ≠ x
  lines := Eq
  functions := Eq

variable {x : String}

mutual

theorem Expr.alike_apartFrom : ∀ {e : Expr τ}, x ∉ e.names → e.Alike (.apartFrom x) e
  | .number .., _ => .number rfl
  | .var .., h => by
    rw [Expr.names, List.mem_singleton] at h
    exact .var (Ne.symm h) rfl
  | .arithmetic .., h => by
    rw [Expr.names, List.mem_append, not_or] at h
    exact .arithmetic (Expr.alike_apartFrom h.1) (Expr.alike_apartFrom h.2) rfl
  | .assign .., h => by
    rw [Expr.names, List.mem_cons, not_or] at h
    exact .assign (Ne.symm h.1) (Expr.alike_apartFrom h.2) rfl
  | .function .., h => by
    rw [Expr.names, List.mem_append, not_or] at h
    exact .function rfl (fun y hy hx => h.1 (hx ▸ hy)) (alikeAll_apartFrom h.2) rfl
  | .call .., h => by
    rw [Expr.names, List.mem_cons, not_or] at h
    exact .call (Ne.symm h.1) (alikeAll_apartFrom h.2) rfl

theorem alikeAll_apartFrom : ∀ {es : List (Expr τ)}, x ∉ namesAll es →
    AlikeAll (.apartFrom x) es es
  | [], _ => .nil
  | _ :: _, h => by
    rw [namesAll, List.mem_append, not_or] at h
    exact .cons (Expr.alike_apartFrom h.1) (alikeAll_apartFrom h.2)

end

theorem namesAll_append (es fs : List (Expr τ)) : namesAll (es ++ fs) = namesAll es ++ namesAll fs := by
  induction es with
  | nil => rfl
  | cons e es ih => rw [List.cons_append, namesAll, namesAll, ih, List.append_assoc]

theorem namesAll_flatMap (program : List (Statement τ)) :
    namesAll (program.flatMap Statement.expressions) = program.flatMap Statement.names := by
  induction program with
  | nil => rfl
  | cons s program ih =>
    rw [List.flatMap_cons, List.flatMap_cons, namesAll_append, ih]
    rfl

theorem Value.Avoids.alike {v : Value τ} (h : v.Avoids x) : v.Alike (.apartFrom x) v := by
  cases v with
  | number y => exact .number y
  | function f =>
    obtain ⟨hparams, hbody⟩ := not_or.1 (mt List.mem_append.2 h)
    exact .function ⟨rfl, rfl, fun y hy hx => hparams (hx ▸ hy), alikeAll_apartFrom hbody, rfl⟩

theorem Value.Alike.eq_of_apartFrom {v v' : Value τ} (h : v.Alike (.apartFrom x) v') : v = v' := by
  cases h with
  | number y => rfl
  | function hf => exact congrArg Value.function hf.related

theorem RuntimeError.Alike.eq_of_apartFrom {e e' : RuntimeError}
    (h : e.Alike (.apartFrom x : Likeness τ τ) e') : e = e' := by
  obtain ⟨line, rfl, rfl⟩ := h
  cases e <;> rfl

theorem Table.SameBut.alike {t t' : Table τ} (h : t.SameBut x t') (ht : t.Avoids x) :
    t.Alike (.apartFrom x) t' := by
  intro name hname
  rw [h name hname]
  cases hv : t[name]? with
  | none => exact .none
  | some v => exact .some (ht name v hname hv).alike

theorem Table.Alike.sameBut {t t' : Table τ} (h : t.Alike (.apartFrom x) t') : t.SameBut x t' := by
  intro name hname
  have hbound := h name hname
  generalize t[name]? = o, t'[name]? = o' at hbound
  cases hbound with
  | none => rfl
  | some hv => rw [hv.eq_of_apartFrom]

theorem Scope.SameBut.alike {s s' : Scope τ} (h : s.SameBut x s') (hs : s.Avoids x) :
    s.Alike (.apartFrom x) s' := by
  have htables : List.Forall₂ (Table.Alike (.apartFrom x)) (s.locals :: s.outer)
      (s'.locals :: s'.outer) :=
    ((List.forall₂_and_left _ _).2 ⟨hs, h⟩).imp fun _ _ ht => ht.2.alike ht.1
  obtain ⟨hlocals, houter⟩ := List.forall₂_cons.1 htables
  exact ⟨hlocals, houter⟩

theorem Scope.Alike.sameBut {s s' : Scope τ} (h : s.Alike (.apartFrom x) s') : s.SameBut x s' :=
  .cons h.locals.sameBut (h.outer.imp fun _ _ ht => ht.sameBut)

end

/-! ## What evaluation touches -/

section
variable {τ : Type}

mutual

theorem Expr.touched_subset_names : ∀ e : Expr τ, e.targets ++ e.mentions ⊆ e.names
  | .number .. | .function .. => by simp [Expr.targets, Expr.mentions]
  | .var .. => by simp [Expr.targets, Expr.mentions, Expr.names]
  | .arithmetic _ left right _ => by
    have hleft := left.touched_subset_names
    have hright := right.touched_subset_names
    grind [Expr.targets, Expr.mentions, Expr.names]
  | .assign name value _ => by
    have hvalue := value.touched_subset_names
    grind [Expr.targets, Expr.mentions, Expr.names]
  | .call name arguments _ => by
    have harguments := touchedAll_subset_names arguments
    grind [Expr.targets, Expr.mentions, Expr.names]

theorem touchedAll_subset_names : ∀ es : List (Expr τ), targetsAll es ++ mentionsAll es ⊆ namesAll es
  | [] => by simp [targetsAll, mentionsAll]
  | e :: es => by
    have he := e.touched_subset_names
    have hes := touchedAll_subset_names es
    grind [targetsAll, mentionsAll, namesAll]

end

variable {x : String}

/-- A name outside a footprint keeps its bindings. -/
theorem Scope.Footprint.column_eq {A R : List String} {s s' : Scope τ} (h : s.Footprint A R s')
    (hx : x ∉ A ++ R) : s'.column x = s.column x := by
  obtain ⟨hA, hR⟩ := not_or.1 (mt List.mem_append.2 hx)
  have hlocal : s'.getLocal? x = s.getLocal? x := by
    cases hv : s.getLocal? x with
    | some v => exact h.kept x v hA hv
    | none =>
      refine Option.eq_none_iff_forall_ne_some.2 fun v hv' => ?_
      rcases h.fresh x v hv hv' with hin | ⟨hin, -⟩
      · exact hA hin
      · exact hR hin
  unfold Scope.getLocal? at hlocal
  rw [Scope.column, Scope.column, List.map_cons, List.map_cons, h.outer, hlocal]

theorem Eval.within_evalStatements (settings : Settings) (program : List (Statement τ)) :
    Eval.Within (targetsAll (program.flatMap Statement.expressions))
      (mentionsAll (program.flatMap Statement.expressions)) (evalStatements settings program) :=
  (Eval.within_evalLastWith (Eval.stillCalls_apply settings) _).bind fun _ =>
    (Eval.still_pure _).within _ _

/-- What does alike apart from a name, and does not touch it, is unmoved by it. -/
theorem Eval.DoAlike.unmoved {p : Eval τ (Value τ)} {A R : List String} {m m' : Machine τ}
    (h : Eval.DoAlike (.apartFrom x) (Value.Alike (.apartFrom x)) p p)
    (hp : Eval.Within A R p) (hx : x ∉ A ++ R) (hm : m.Alike (.apartFrom x) m') :
    Eval.Unmoved x m m' p where
  alike := (h m m' hm).imp (fun _ _ hn => hn.scope.sameBut) (fun _ _ he => he.eq_of_apartFrom)
    fun _ _ hv => hv.eq_of_apartFrom
  left := (hp m).column_eq hx
  right := (hp m').column_eq hx

/-- Two machines that differ in the bindings of a name only are not told apart by expressions and
programs that do not mention the name, if the functions in the scopes do not mention it either. -/
theorem eval_unmentioned (settings : Settings) {m m' : Machine τ}
    (hdepth : m'.callDepth = m.callDepth) (hsame : m.scope.SameBut x m'.scope)
    (havoids : m.scope.Avoids x) :
    (∀ e : Expr τ, x ∉ e.names → Eval.Unmoved x m m' (e.eval settings)) ∧
    ∀ program : List (Statement τ), (∀ s ∈ program, x ∉ s.names) →
      Eval.Unmoved x m m' (evalStatements settings program) := by
  have hm : m.Alike (.apartFrom x) m' := ⟨hdepth, hsame.alike havoids⟩
  refine ⟨fun e he => ?_, fun program hprogram => ?_⟩
  · have halike : Eval.DoAlike (.apartFrom x) (Value.Alike (.apartFrom x)) (e.eval settings)
        (e.eval settings) :=
      Eval.alike_evalWith (Eval.callAlike_apply settings) (Expr.alike_apartFrom he)
    exact halike.unmoved (Eval.within_evalWith (Eval.stillCalls_apply settings) e)
      (fun h => he (e.touched_subset_names h)) hm
  · have hnames : x ∉ namesAll (program.flatMap Statement.expressions) := by
      rw [namesAll_flatMap, List.mem_flatMap]
      rintro ⟨s, hs, hx⟩
      exact hprogram s hs hx
    have halike : List.Forall₂ (Statement.Alike (.apartFrom x)) program program :=
      List.forall₂_same.2 fun s hs => alikeAll_apartFrom (hprogram s hs)
    exact (alike_evalStatements settings halike).unmoved (Eval.within_evalStatements settings program)
      (fun h => hnames (touchedAll_subset_names _ h)) hm

end

/-- The argument of a call changes the scope, and the function that is called is no other for a
binding of `x` that hides an outer one. -/
theorem eval_unmentioned_call :
    let f : Function Nat := ⟨0, ["p"], [.assign "q" (.var "p" 1) 1, .var "r" 1], 1⟩
    let g : Function Nat := ⟨1, [], [.var "x" 1], 1⟩
    let t : Table Nat := (∅ : Table Nat).insert "f" (.function f)
    let m : Machine Nat := { scope := ⟨t, [(∅ : Table Nat).insert "x" (.number 1)]⟩ }
    let m' : Machine Nat := { scope := ⟨t.insert "x" (.function g), [∅]⟩ }
    let e : Expr Nat := .call "f" [.assign "a" (.number 2 1) 1] 1
    m.scope.SameBut "x" m'.scope ∧ m.scope.Avoids "x" ∧ Eval.Unmoved "x" m m' (e.eval {}) := by
  intro f g t m m' e
  have hsame : m.scope.SameBut "x" m'.scope := by
    refine .cons (fun name hname => ?_) (.cons (fun name hname => ?_) .nil)
    · simp [m, m', Std.ExtTreeMap.getElem?_insert, hname.symm]
    · simp [hname.symm]
  have havoids : m.scope.Avoids "x" := by
    refine List.forall_mem_cons.2 ⟨fun name v hname hv => ?_, List.forall_mem_singleton.2
      fun name v hname hv => ?_⟩
    · simp only [m, t, Std.ExtTreeMap.getElem?_insert] at hv
      split at hv
      · cases hv
        exact (by decide : "x" ∉ f.names)
      · simp at hv
    · simp [hname.symm] at hv
  have h := eval_unmentioned {} (show m'.callDepth = m.callDepth from rfl) hsame havoids
  exact ⟨hsame, havoids, h.1 e (by decide)⟩

end Reckon
