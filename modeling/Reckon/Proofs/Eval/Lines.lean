import Mathlib.Data.List.Forall2
import Reckon.Eval
import Reckon.Proofs.Lines
import Reckon.Proofs.Simulation

/-!
# Evaluation does not look at lines

A program that has been moved, run in a scope whose functions have been moved, does what the program
itself does; its result, its error and its scope are moved again (`moves_evalStatements`). Parts
that come from different texts may have been moved by different maps, so that the relations of this
module are about a family `G` of line maps: each function and each error is moved by one of them.
-/

set_option autoImplicit false

namespace Reckon

section
variable {τ : Type} (G : (Nat → Nat) → Prop)

def Value.Moved (v v' : Value τ) : Prop := ∃ g, G g ∧ v' = v.mapLines g

def RuntimeError.Moved (e e' : RuntimeError) : Prop := ∃ g, G g ∧ e' = e.mapLines g

/-- The same names are bound, to moved values. -/
def Table.Moved (t t' : Table τ) : Prop :=
  ∀ name : String, Option.Rel (Value.Moved G) t[name]? t'[name]?

structure Scope.Moved (s s' : Scope τ) : Prop where
  locals : Table.Moved G s.locals s'.locals
  outer : List.Forall₂ (Table.Moved G) s.outer s'.outer

structure Machine.Moved (m m' : Machine τ) : Prop where
  depth : m'.callDepth = m.callDepth
  scope : m.scope.Moved G m'.scope

end

section
variable {τ : Type} {G : (Nat → Nat) → Prop}

/-! ## Scopes -/

theorem Value.Moved.number {g : Nat → Nat} (hg : G g) (x : Float) :
    Value.Moved G (.number x : Value τ) (.number x) :=
  ⟨g, hg, rfl⟩

theorem Value.Moved.refl (hG : G id) (v : Value τ) : v.Moved G v := ⟨id, hG, by simp⟩

theorem Table.Moved.refl (hG : G id) (t : Table τ) : Table.Moved G t t := by
  intro name
  cases t[name]? with
  | none => exact .none
  | some v => exact .some (.refl hG v)

theorem Scope.Moved.refl (hG : G id) (s : Scope τ) : s.Moved G s :=
  ⟨.refl hG _, List.forall₂_same.2 fun t _ => .refl hG t⟩

theorem Table.Moved.empty : Table.Moved G (∅ : Table τ) ∅ := by
  intro name
  simp only [Std.ExtTreeMap.getElem?_empty]
  exact .none

theorem Table.Moved.insert {t t' : Table τ} (h : Table.Moved G t t') {v v' : Value τ}
    (hv : v.Moved G v') (name : String) : Table.Moved G (t.insert name v) (t'.insert name v') := by
  intro other
  simp only [Std.ExtTreeMap.getElem?_insert]
  split
  · exact .some hv
  · exact h other

namespace Scope.Moved

variable {s s' : Scope τ}

theorem push (h : s.Moved G s') : s.push.Moved G s'.push := ⟨.empty, .cons h.locals h.outer⟩

theorem pop (h : s.Moved G s') : s.pop.Moved G s'.pop := by
  obtain ⟨locals, outer⟩ := s
  obtain ⟨locals', outer'⟩ := s'
  obtain ⟨hlocals, houter⟩ := h
  cases houter with
  | nil => exact ⟨hlocals, .nil⟩
  | cons htable houter => exact ⟨htable, houter⟩

theorem write (h : s.Moved G s') {v v' : Value τ} (hv : v.Moved G v') (name : String) :
    (s.write name v).Moved G (s'.write name v') :=
  ⟨h.locals.insert hv name, h.outer⟩

theorem writeAll (params : List String) {vs vs' : List (Value τ)} (h : s.Moved G s')
    (hvs : List.Forall₂ (Value.Moved G) vs vs') :
    (s.writeAll (params.zip vs)).Moved G (s'.writeAll (params.zip vs')) := by
  unfold Scope.writeAll
  induction hvs generalizing params s s' with
  | nil => simpa using h
  | cons hv _ ih =>
    cases params with
    | nil => exact h
    | cons x params => exact ih params (h.write hv x)

theorem lookup? (h : s.Moved G s') (name : String) :
    Option.Rel (Value.Moved G) (s.lookup? name) (s'.lookup? name) := by
  have htables : List.Forall₂ (Table.Moved G) (s.locals :: s.outer) (s'.locals :: s'.outer) :=
    .cons h.locals h.outer
  unfold Scope.lookup?
  generalize s.locals :: s.outer = tables, s'.locals :: s'.outer = tables' at htables
  induction htables with
  | nil => exact .none
  | @cons t t' tables tables' ht _ ih =>
    have hname := ht name
    rw [List.findSome?_cons, List.findSome?_cons]
    generalize t[name]? = o, t'[name]? = o' at hname
    cases hname with
    | none => exact ih
    | some hv => exact .some hv

end Scope.Moved

end

/-! ## The parts of the evaluator -/

namespace Eval

variable {τ α β : Type} {G : (Nat → Nat) → Prop} {g : Nat → Nat}

/-- From moved machines, `p` and `q` come to results related by `A`, or to moved errors, and to
moved machines again. -/
abbrev Moves (G : (Nat → Nat) → Prop) (A : α → β → Prop) (p : Eval τ α) (q : Eval τ β) : Prop :=
  Simulates (Machine.Moved G) (RuntimeError.Moved G) A p q

theorem moves_read (hg : G g) (name : String) :
    Moves G (Value.Moved G) (read name : Eval τ (Value τ)) (read name) := by
  intro m m' hm
  have hname := hm.scope.lookup? name
  unfold read Scope.read
  generalize m.scope.lookup? name = o, m'.scope.lookup? name = o' at hname
  cases hname with
  | some hv => exact .ok hv ⟨hm.depth, hm.scope⟩
  | none =>
    have hzero : Value.Moved G (.zero : Value τ) .zero := .number hg 0
    exact .ok hzero ⟨hm.depth, hm.scope.write hzero name⟩

theorem moves_write {v v' : Value τ} (hv : v.Moved G v') (name : String) :
    Moves G Eq (write name v) (write name v') := by
  intro m m' hm
  exact .ok rfl ⟨hm.depth, hm.scope.write hv name⟩

theorem moves_throw {A : α → β → Prop} (hg : G g) (e : RuntimeError) :
    Moves G A (throw e : Eval τ α) (throw (e.mapLines g)) :=
  Simulates.throw ⟨g, hg, rfl⟩

theorem moves_ofExcept (hg : G g) (x : Except RuntimeError α) :
    Moves G Eq (MonadExcept.ofExcept x : Eval τ α)
      (MonadExcept.ofExcept (x.mapError (RuntimeError.mapLines g))) := by
  cases x with
  | ok a => exact Simulates.pure rfl
  | error e => exact moves_throw hg e

theorem Moves.inFrame {A : α → β → Prop} {p : Eval τ α} {q : Eval τ β} (h : Moves G A p q)
    (params : List String) {vs vs' : List (Value τ)} (hvs : List.Forall₂ (Value.Moved G) vs vs') :
    Moves G A (inFrame (params.zip vs) p) (inFrame (params.zip vs') q) := by
  intro m m' hm
  have hr := h ⟨m.scope.push.writeAll (params.zip vs), m.callDepth + 1⟩
    ⟨m'.scope.push.writeAll (params.zip vs'), m'.callDepth + 1⟩
    ⟨by rw [hm.depth], hm.scope.push.writeAll params hvs⟩
  unfold Eval.inFrame
  generalize p _ = r, q _ = r' at hr
  cases hr with
  | ok ha hs => exact .ok ha ⟨by simp only [hs.depth], hs.scope.pop⟩
  | error he hs => exact .error he ⟨by simp only [hs.depth], hs.scope.pop⟩

end Eval

theorem operand_mapLines {τ : Type} (op : Operator) (line : Nat) (v : Value τ) (g g' : Nat → Nat) :
    operand op (g line) (v.mapLines g') =
      (operand op line v).mapError (RuntimeError.mapLines g) := by
  cases v <;> rfl

theorem Operator.apply_mapLines (op : Operator) (division : Division) (line : Nat) (x y : Float)
    (g : Nat → Nat) : op.apply division (g line) x y =
      (op.apply division line x y).mapError (RuntimeError.mapLines g) := by
  cases op with
  | divide =>
    simp only [Operator.apply]
    split <;> rfl
  | _ => rfl

/-! ## Expressions -/

namespace Eval

section
variable {τ : Type} {G : (Nat → Nat) → Prop} {g : Nat → Nat} {division : Division} {call : Call τ}

/-- Calls of moved functions with moved arguments, from any lines, do the same. -/
def MovesCalls (G : (Nat → Nat) → Prop) (call : Call τ) : Prop :=
  ∀ g g', G g → G g' → ∀ (f : Function τ) (vs vs' : List (Value τ)) (line : Nat),
    List.Forall₂ (Value.Moved G) vs vs' →
      Moves G (Value.Moved G) (call f vs line) (call (f.mapLines g) vs' (g' line))

mutual

theorem moves_evalWith (hcall : MovesCalls G call) (hg : G g) : ∀ e : Expr τ,
    Moves G (Value.Moved G) (evalWith division call e) (evalWith division call (e.mapLines g))
  | .number x _ => by
    rw [Expr.mapLines, evalWith, evalWith]
    exact .pure (.number hg x)
  | .var name _ => by
    rw [Expr.mapLines, evalWith, evalWith]
    exact moves_read hg name
  | .arithmetic op left right line => by
    rw [Expr.mapLines, evalWith, evalWith]
    refine (moves_evalWith hcall hg left).bind ?_
    intro v v' hv
    obtain ⟨g₁, -, rfl⟩ := hv
    rw [operand_mapLines]
    refine (moves_ofExcept hg _).bind ?_
    intro x x' hx
    subst hx
    refine (moves_evalWith hcall hg right).bind ?_
    intro w w' hw
    obtain ⟨g₂, -, rfl⟩ := hw
    rw [operand_mapLines]
    refine (moves_ofExcept hg _).bind ?_
    intro y y' hy
    subst hy
    rw [Operator.apply_mapLines]
    refine (moves_ofExcept hg _).bind ?_
    intro z z' hz
    subst hz
    exact .pure (.number hg z)
  | .assign name value _ => by
    rw [Expr.mapLines, evalWith, evalWith]
    refine (moves_evalWith hcall hg value).bind fun v v' hv => ?_
    exact (moves_write hv name).bind fun _ _ _ => .pure hv
  | .function tag params body line => by
    rw [Expr.mapLines, evalWith, evalWith]
    exact .pure ⟨g, hg, rfl⟩
  | .call name arguments line => by
    rw [Expr.mapLines, evalWith, evalWith]
    refine (moves_read hg name).bind ?_
    intro v v' hv
    obtain ⟨g₁, hg₁, rfl⟩ := hv
    cases v with
    | number x => exact moves_throw hg _
    | function f =>
      refine (moves_evalAllWith hcall hg arguments).bind fun vs vs' hvs => ?_
      -- the function may come from another text than the call
      exact hcall g₁ g hg₁ hg f vs vs' line hvs

theorem moves_evalAllWith (hcall : MovesCalls G call) (hg : G g) : ∀ es : List (Expr τ),
    Moves G (List.Forall₂ (Value.Moved G)) (evalAllWith division call es)
      (evalAllWith division call (mapLinesAll g es))
  | [] => by
    rw [mapLinesAll, evalAllWith]
    exact .pure .nil
  | e :: es => by
    rw [mapLinesAll, evalAllWith, evalAllWith]
    refine (moves_evalWith hcall hg e).bind fun v v' hv => ?_
    refine (moves_evalAllWith hcall hg es).bind fun vs vs' hvs => ?_
    exact .pure (.cons hv hvs)

end

theorem moves_evalLastWith (hcall : MovesCalls G call) (hg : G g) (es : List (Expr τ)) :
    Moves G (Option.Rel (Value.Moved G)) (evalLastWith division call es)
      (evalLastWith division call (mapLinesAll g es)) := by
  unfold evalLastWith
  refine (moves_evalAllWith hcall hg es).bind fun vs vs' hvs => ?_
  exact .pure (forall₂_getLast? hvs)

end

section
variable {τ : Type} {G : (Nat → Nat) → Prop} {g : Nat → Nat} (settings : Settings)

/-- By induction on the number of calls that may still be nested. -/
theorem movesCalls_applyWithin (n : Nat) :
    MovesCalls G (Function.applyWithin settings n : Call τ) := by
  induction n with
  | zero =>
    intro g g' _ hg' f vs vs' line hvs
    rw [Function.applyWithin, Function.applyWithin, ← hvs.length_eq]
    by_cases hl : vs.length = f.params.length
    · rw [if_pos hl, if_pos (show vs.length = (f.mapLines g).params.length from hl)]
      exact moves_throw hg' _
    · rw [if_neg hl, if_neg (show ¬vs.length = (f.mapLines g).params.length from hl)]
      exact moves_throw hg' _
  | succ n ih =>
    intro g g' hg hg' f vs vs' line hvs
    rw [Function.applyWithin, Function.applyWithin, ← hvs.length_eq]
    by_cases hl : vs.length = f.params.length
    · rw [if_pos hl, if_pos (show vs.length = (f.mapLines g).params.length from hl)]
      have hbody := @moves_evalLastWith τ G g settings.division _ ih hg f.body
      refine (hbody.inFrame f.params hvs).bind fun o o' ho => ?_
      cases ho with
      | some hv => exact .pure hv
      | none => exact moves_throw hg _
    · rw [if_neg hl, if_neg (show ¬vs.length = (f.mapLines g).params.length from hl)]
      exact moves_throw hg' _

theorem movesCalls_apply : MovesCalls G (Function.apply settings : Call τ) := by
  intro g g' hg hg' f vs vs' line hvs m m' hm
  unfold Function.apply
  rw [hm.depth]
  exact movesCalls_applyWithin settings _ g g' hg hg' f vs vs' line hvs m m' hm

end

end Eval

/-- Moved machines come to moved values, or to moved errors, and to moved machines. -/
theorem moves_evalStatements {τ : Type} {G : (Nat → Nat) → Prop} {g : Nat → Nat} (hg : G g)
    (settings : Settings) (program : List (Statement τ)) :
    Eval.Moves G (Value.Moved G) (evalStatements settings program)
      (evalStatements settings (program.map (Statement.mapLines g))) := by
  unfold evalStatements evalSequence
  rw [flatMap_mapLines]
  refine (Eval.moves_evalLastWith (Eval.movesCalls_apply settings) hg _).bind fun o o' ho => ?_
  cases ho with
  | some hv => exact .pure hv
  | none => exact .pure (.number hg 0)

/-! ## Maps that move nothing -/

section
variable {τ : Type} {G : (Nat → Nat) → Prop} (hG : ∀ g, G g → g = id)
include hG

theorem Value.Moved.eq {v v' : Value τ} (h : v.Moved G v') : v' = v := by
  obtain ⟨g, hg, rfl⟩ := h
  rw [hG g hg, Value.mapLines_id]

theorem Table.Moved.eq {t t' : Table τ} (h : Table.Moved G t t') : t' = t := by
  refine Std.ExtTreeMap.ext_getElem? fun name => ?_
  have hname := h name
  generalize t[name]? = o, t'[name]? = o' at hname ⊢
  cases hname with
  | none => rfl
  | some hv => rw [hv.eq hG]

theorem Scope.Moved.eq {s s' : Scope τ} (h : s.Moved G s') : s' = s := by
  obtain ⟨locals, outer⟩ := s
  obtain ⟨locals', outer'⟩ := s'
  obtain rfl : locals' = locals := h.locals.eq hG
  obtain rfl : outer = outer' := List.forall₂_eq_eq_eq ▸ h.outer.imp fun _ _ ht => (ht.eq hG).symm
  rfl

end

end Reckon
