import Mathlib.Data.List.Forall2
import Reckon.Proofs.Lines
import Reckon.Scope

/-!
# Alike trees and scopes

Two trees are alike under a `Likeness` if they have one shape and the same numbers and names; the
likeness says which names may occur, which lines may stand for one another, and which function
literals. Values are alike if they are the same number or come from alike literals, and scopes if
they bind the names that may occur to alike values. `Likeness.upToLines T` lets any lines stand for
one another, and function literals whose tags are related by `T`.

Every operation on scopes keeps alike scopes alike, and trees that differ in their lines only are
alike (`Expr.alike_of_mapLines`).
-/

set_option autoImplicit false

namespace Reckon

/-- What may differ between two trees. -/
structure Likeness (τ τ' : Type) where
  /-- The names that may occur. -/
  names : String → Prop
  /-- The lines that may stand for one another. -/
  lines : Nat → Nat → Prop
  /-- The function literals that may stand for one another, if their parts do. -/
  functions : Function τ → Function τ' → Prop

/-- Lines do not count, and tags are related by `T`. -/
def Likeness.upToLines {τ τ' : Type} (T : τ → τ' → Prop) : Likeness τ τ' where
  names _ := True
  lines _ _ := True
  functions f f' := T f.tag f'.tag

section
variable {τ τ' : Type} (K : Likeness τ τ')

mutual

inductive Expr.Alike : Expr τ → Expr τ' → Prop
  | number {x : Float} {l l' : Nat} : K.lines l l' → Expr.Alike (.number x l) (.number x l')
  | var {name : String} {l l' : Nat} :
      K.names name → K.lines l l' → Expr.Alike (.var name l) (.var name l')
  | arithmetic {op : Operator} {left right : Expr τ} {left' right' : Expr τ'} {l l' : Nat} :
      Expr.Alike left left' → Expr.Alike right right' → K.lines l l' →
      Expr.Alike (.arithmetic op left right l) (.arithmetic op left' right' l')
  | assign {name : String} {value : Expr τ} {value' : Expr τ'} {l l' : Nat} :
      K.names name → Expr.Alike value value' → K.lines l l' →
      Expr.Alike (.assign name value l) (.assign name value' l')
  | function {tag : τ} {tag' : τ'} {params : List String} {body : List (Expr τ)}
      {body' : List (Expr τ')} {l l' : Nat} :
      K.functions ⟨tag, params, body, l⟩ ⟨tag', params, body', l'⟩ → (∀ x ∈ params, K.names x) →
      AlikeAll body body' → K.lines l l' →
      Expr.Alike (.function tag params body l) (.function tag' params body' l')
  | call {name : String} {arguments : List (Expr τ)} {arguments' : List (Expr τ')} {l l' : Nat} :
      K.names name → AlikeAll arguments arguments' → K.lines l l' →
      Expr.Alike (.call name arguments l) (.call name arguments' l')

inductive AlikeAll : List (Expr τ) → List (Expr τ') → Prop
  | nil : AlikeAll [] []
  | cons {e : Expr τ} {e' : Expr τ'} {es : List (Expr τ)} {es' : List (Expr τ')} :
      Expr.Alike e e' → AlikeAll es es' → AlikeAll (e :: es) (e' :: es')

end

structure Function.Alike (f : Function τ) (f' : Function τ') : Prop where
  related : K.functions f f'
  params : f'.params = f.params
  names : ∀ x ∈ f.params, K.names x
  body : AlikeAll K f.body f'.body
  line : K.lines f.line f'.line

inductive Value.Alike : Value τ → Value τ' → Prop
  | number (x : Float) : Value.Alike (.number x) (.number x)
  | function {f : Function τ} {f' : Function τ'} :
      f.Alike K f' → Value.Alike (.function f) (.function f')

def Statement.Alike (s : Statement τ) (s' : Statement τ') : Prop :=
  AlikeAll K s.expressions s'.expressions

/-- The names that may occur are bound alike. -/
def Table.Alike (t : Table τ) (t' : Table τ') : Prop :=
  ∀ name, K.names name → Option.Rel (Value.Alike K) t[name]? t'[name]?

structure Scope.Alike (s : Scope τ) (s' : Scope τ') : Prop where
  locals : Table.Alike K s.locals s'.locals
  outer : List.Forall₂ (Table.Alike K) s.outer s'.outer

end

/-- The same error, on a line that may be another one. -/
def SyntaxError.Alike (e e' : SyntaxError) : Prop := ∃ line, e' = e.mapLines fun _ => line

@[inherit_doc SyntaxError.Alike]
def Error.Alike (e e' : Error) : Prop := ∃ line, e' = e.mapLines fun _ => line

/-! ## Lists of trees -/

section
variable {τ τ' : Type} {K : Likeness τ τ'}

theorem AlikeAll.append {es fs : List (Expr τ)} {es' fs' : List (Expr τ')}
    (h : AlikeAll K es es') (hfs : AlikeAll K fs fs') : AlikeAll K (es ++ fs) (es' ++ fs') := by
  induction es generalizing es' with
  | nil =>
    cases h
    exact hfs
  | cons e es ih =>
    cases h with
    | cons he hes => exact .cons he (ih hes)

theorem alikeAll_flatMap {p : List (Statement τ)} {p' : List (Statement τ')}
    (h : List.Forall₂ (Statement.Alike K) p p') :
    AlikeAll K (p.flatMap Statement.expressions) (p'.flatMap Statement.expressions) := by
  induction h with
  | nil => exact .nil
  | cons hs _ ih =>
    rw [List.flatMap_cons, List.flatMap_cons]
    exact AlikeAll.append hs ih

/-! ## Scopes -/

theorem Table.Alike.empty : Table.Alike K (∅ : Table τ) (∅ : Table τ') := by
  intro name _
  simp only [Std.ExtTreeMap.getElem?_empty]
  exact .none

namespace Scope.Alike

variable {s : Scope τ} {s' : Scope τ'}

theorem push (h : s.Alike K s') : s.push.Alike K s'.push := ⟨.empty, .cons h.locals h.outer⟩

theorem pop (h : s.Alike K s') : s.pop.Alike K s'.pop := by
  obtain ⟨locals, outer⟩ := s
  obtain ⟨locals', outer'⟩ := s'
  obtain ⟨hlocals, houter⟩ := h
  cases houter with
  | nil => exact ⟨hlocals, .nil⟩
  | cons htable houter => exact ⟨htable, houter⟩

theorem write (h : s.Alike K s') {v : Value τ} {v' : Value τ'} (hv : v.Alike K v')
    (name : String) : (s.write name v).Alike K (s'.write name v') := by
  refine ⟨fun other hother => ?_, h.outer⟩
  simp only [Scope.write, Std.ExtTreeMap.getElem?_insert]
  split
  · exact .some hv
  · exact h.locals other hother

theorem writeAll (params : List String) {vs : List (Value τ)} {vs' : List (Value τ')}
    (h : s.Alike K s') (hvs : List.Forall₂ (Value.Alike K) vs vs') :
    (s.writeAll (params.zip vs)).Alike K (s'.writeAll (params.zip vs')) := by
  unfold Scope.writeAll
  induction hvs generalizing params s s' with
  | nil => simpa using h
  | cons hv _ ih =>
    cases params with
    | nil => exact h
    | cons x params => exact ih params (h.write hv x)

theorem lookup? (h : s.Alike K s') {name : String} (hname : K.names name) :
    Option.Rel (Value.Alike K) (s.lookup? name) (s'.lookup? name) := by
  have htables : List.Forall₂ (Table.Alike K) (s.locals :: s.outer) (s'.locals :: s'.outer) :=
    .cons h.locals h.outer
  unfold Scope.lookup?
  generalize s.locals :: s.outer = tables, s'.locals :: s'.outer = tables' at htables
  induction htables with
  | nil => exact .none
  | @cons t t' tables tables' ht _ ih =>
    have hbound := ht name hname
    rw [List.findSome?_cons, List.findSome?_cons]
    generalize t[name]? = o, t'[name]? = o' at hbound
    cases hbound with
    | none => exact ih
    | some hv => exact .some hv

end Scope.Alike

end

/-! ## Trees that differ in their lines only -/

section
variable {τ : Type} {f g : Nat → Nat}

mutual

theorem Expr.alike_of_mapLines : ∀ {e e' : Expr τ}, e.mapLines f = e'.mapLines g →
    e.Alike (.upToLines Eq) e'
  | .number .., e', h => by
    cases e' with
    | number =>
      obtain ⟨rfl, -⟩ := Expr.number.inj h
      exact .number trivial
    | _ => cases h
  | .var .., e', h => by
    cases e' with
    | var =>
      obtain ⟨rfl, -⟩ := Expr.var.inj h
      exact .var trivial trivial
    | _ => cases h
  | .arithmetic .., e', h => by
    cases e' with
    | arithmetic =>
      obtain ⟨rfl, hleft, hright, -⟩ := Expr.arithmetic.inj h
      exact .arithmetic (Expr.alike_of_mapLines hleft) (Expr.alike_of_mapLines hright) trivial
    | _ => cases h
  | .assign .., e', h => by
    cases e' with
    | assign =>
      obtain ⟨rfl, hvalue, -⟩ := Expr.assign.inj h
      exact .assign trivial (Expr.alike_of_mapLines hvalue) trivial
    | _ => cases h
  | .function .., e', h => by
    cases e' with
    | function =>
      obtain ⟨rfl, rfl, hbody, -⟩ := Expr.function.inj h
      exact .function rfl (fun _ _ => trivial) (alikeAll_of_mapLinesAll hbody) trivial
    | _ => cases h
  | .call .., e', h => by
    cases e' with
    | call =>
      obtain ⟨rfl, harguments, -⟩ := Expr.call.inj h
      exact .call trivial (alikeAll_of_mapLinesAll harguments) trivial
    | _ => cases h

theorem alikeAll_of_mapLinesAll : ∀ {es es' : List (Expr τ)},
    mapLinesAll f es = mapLinesAll g es' → AlikeAll (.upToLines Eq) es es'
  | [], es', h => by
    cases es' with
    | nil => exact .nil
    | cons e' es' => cases h
  | e :: es, es', h => by
    cases es' with
    | nil => cases h
    | cons e' es' =>
      obtain ⟨he, hes⟩ := List.cons.inj h
      exact .cons (Expr.alike_of_mapLines he) (alikeAll_of_mapLinesAll hes)

end

end

end Reckon
