import Reckon.Eval
import Reckon.Proofs.Alike
import Reckon.Proofs.Simulation

/-!
# Alike programs do alike

Alike expressions, evaluated in alike scopes, come to alike values or to alike errors and leave
alike scopes (`alike_evalWith`), and so do programs (`alike_evalStatements`). The bodies that run
are found in the scopes; they are alike because the values there are.

Run against itself, a program shows what evaluation keeps: whatever a likeness asks of the function
literals of the program and of the functions in the scope, it has of all functions afterwards.
-/

set_option autoImplicit false

namespace Reckon

variable {τ τ' : Type}

/-- The same error, on a line that may stand for the other one. -/
def RuntimeError.Alike (K : Likeness τ τ') (e e' : RuntimeError) : Prop :=
  ∃ line, K.lines e.line line ∧ e' = e.mapLines fun _ => line

structure Machine.Alike (K : Likeness τ τ') (m : Machine τ) (m' : Machine τ') : Prop where
  depth : m'.callDepth = m.callDepth
  scope : m.scope.Alike K m'.scope

namespace Eval

variable {α β : Type} {K : Likeness τ τ'}

/-- From alike machines, `p` and `q` come to results related by `A`, or to alike errors, and to
alike machines again. -/
abbrev DoAlike (K : Likeness τ τ') (A : α → β → Prop) (p : Eval τ α) (q : Eval τ' β) : Prop :=
  Simulates (Machine.Alike K) (RuntimeError.Alike K) A p q

/-! ## The parts of the evaluator -/

theorem alike_read {name : String} (hname : K.names name) :
    DoAlike K (Value.Alike K) (read name) (read name) := by
  intro m m' hm
  have hbound := hm.scope.lookup? hname
  unfold read Scope.read
  generalize m.scope.lookup? name = o, m'.scope.lookup? name = o' at hbound
  cases hbound with
  | some hv => exact .ok hv ⟨hm.depth, hm.scope⟩
  | none => exact .ok (.number 0) ⟨hm.depth, hm.scope.write (.number 0) name⟩

theorem alike_write {v : Value τ} {v' : Value τ'} (hv : v.Alike K v') (name : String) :
    DoAlike K Eq (write name v) (write name v') := by
  intro m m' hm
  exact .ok rfl ⟨hm.depth, hm.scope.write hv name⟩

theorem alike_throw {A : α → β → Prop} {e e' : RuntimeError} (h : e.Alike K e') :
    DoAlike K A (throw e) (throw e') :=
  Simulates.throw h

theorem alike_operand (op : Operator) {l l' : Nat} (hl : K.lines l l') {v : Value τ}
    {v' : Value τ'} (hv : v.Alike K v') :
    DoAlike K Eq (MonadExcept.ofExcept (operand op l v))
      (MonadExcept.ofExcept (operand op l' v')) := by
  cases hv with
  | number x => exact Simulates.pure rfl
  | function _ => exact alike_throw ⟨l', hl, rfl⟩

theorem alike_apply (op : Operator) (division : Division) {l l' : Nat} (hl : K.lines l l')
    (x y : Float) :
    DoAlike K Eq (MonadExcept.ofExcept (op.apply division l x y))
      (MonadExcept.ofExcept (op.apply division l' x y)) := by
  cases op with
  | divide =>
    simp only [Operator.apply]
    split
    · exact alike_throw ⟨l', hl, rfl⟩
    · exact Simulates.pure rfl
  | _ => exact Simulates.pure rfl

theorem DoAlike.inFrame {A : α → β → Prop} {p : Eval τ α} {q : Eval τ' β} (h : DoAlike K A p q)
    (params : List String) {vs : List (Value τ)} {vs' : List (Value τ')}
    (hvs : List.Forall₂ (Value.Alike K) vs vs') :
    DoAlike K A (inFrame (params.zip vs) p) (inFrame (params.zip vs') q) := by
  intro m m' hm
  have hr := h ⟨m.scope.push.writeAll (params.zip vs), m.callDepth + 1⟩
    ⟨m'.scope.push.writeAll (params.zip vs'), m'.callDepth + 1⟩
    ⟨by rw [hm.depth], hm.scope.push.writeAll params hvs⟩
  unfold Eval.inFrame
  generalize p _ = r, q _ = r' at hr
  cases hr with
  | ok ha hs => exact .ok ha ⟨by simp only [hs.depth], hs.scope.pop⟩
  | error he hs => exact .error he ⟨by simp only [hs.depth], hs.scope.pop⟩

/-! ## Expressions -/

section
variable {division : Division} {call : Call τ} {call' : Call τ'}

/-- Calls of alike functions with alike arguments do alike. -/
def CallAlike (K : Likeness τ τ') (call : Call τ) (call' : Call τ') : Prop :=
  ∀ f f' vs vs' l l', f.Alike K f' → List.Forall₂ (Value.Alike K) vs vs' → K.lines l l' →
    DoAlike K (Value.Alike K) (call f vs l) (call' f' vs' l')

mutual

theorem alike_evalWith (hcall : CallAlike K call call') {e : Expr τ} {e' : Expr τ'} :
    e.Alike K e' →
      DoAlike K (Value.Alike K) (evalWith division call e) (evalWith division call' e')
  | .number _ => by
    rw [evalWith, evalWith]
    exact .pure (.number _)
  | .var hname _ => by
    rw [evalWith, evalWith]
    exact alike_read hname
  | .arithmetic hleft hright hl => by
    rw [evalWith, evalWith]
    refine (alike_evalWith hcall hleft).bind fun v v' hv => ?_
    refine (alike_operand _ hl hv).bind ?_
    intro x x' hx
    subst hx
    refine (alike_evalWith hcall hright).bind fun w w' hw => ?_
    refine (alike_operand _ hl hw).bind ?_
    intro y y' hy
    subst hy
    refine (alike_apply _ division hl x y).bind ?_
    intro z z' hz
    subst hz
    exact .pure (.number z)
  | .assign _ hvalue _ => by
    rw [evalWith, evalWith]
    refine (alike_evalWith hcall hvalue).bind fun v v' hv => ?_
    exact (alike_write hv _).bind fun _ _ _ => .pure hv
  | .function hrelated hparams hbody hl => by
    rw [evalWith, evalWith]
    exact .pure (.function ⟨hrelated, rfl, hparams, hbody, hl⟩)
  | .call hname harguments hl => by
    rw [evalWith, evalWith]
    refine (alike_read hname).bind fun v v' hv => ?_
    cases hv with
    | number x => exact alike_throw ⟨_, hl, rfl⟩
    | function hf =>
      refine (alike_evalAllWith hcall harguments).bind fun vs vs' hvs => ?_
      exact hcall _ _ vs vs' _ _ hf hvs hl

theorem alike_evalAllWith (hcall : CallAlike K call call') {es : List (Expr τ)}
    {es' : List (Expr τ')} : AlikeAll K es es' →
      DoAlike K (List.Forall₂ (Value.Alike K)) (evalAllWith division call es)
        (evalAllWith division call' es')
  | .nil => by
    rw [evalAllWith, evalAllWith]
    exact .pure .nil
  | .cons he hes => by
    rw [evalAllWith, evalAllWith]
    refine (alike_evalWith hcall he).bind fun v v' hv => ?_
    refine (alike_evalAllWith hcall hes).bind fun vs vs' hvs => ?_
    exact .pure (.cons hv hvs)

end

theorem alike_evalLastWith (hcall : CallAlike K call call') {es : List (Expr τ)}
    {es' : List (Expr τ')} (h : AlikeAll K es es') :
    DoAlike K (Option.Rel (Value.Alike K)) (evalLastWith division call es)
      (evalLastWith division call' es') := by
  unfold evalLastWith
  refine (alike_evalAllWith hcall h).bind fun vs vs' hvs => ?_
  exact .pure (forall₂_getLast? hvs)

end

/-! ## Calls and programs -/

section
variable (settings : Settings)

/-- By induction on the number of calls that may still be nested. -/
theorem callAlike_applyWithin (n : Nat) :
    CallAlike K (Function.applyWithin settings n) (Function.applyWithin settings n) := by
  induction n with
  | zero =>
    intro f f' vs vs' l l' hf hvs hl
    rw [Function.applyWithin, Function.applyWithin, ← hvs.length_eq, hf.params]
    split
    · exact alike_throw ⟨l', hl, rfl⟩
    · exact alike_throw ⟨l', hl, rfl⟩
  | succ n ih =>
    intro f f' vs vs' l l' hf hvs hl
    rw [Function.applyWithin, Function.applyWithin, ← hvs.length_eq, hf.params]
    split
    · have hbody := @alike_evalLastWith _ _ K settings.division _ _ ih _ _ hf.body
      refine (hbody.inFrame f.params hvs).bind fun o o' ho => ?_
      cases ho with
      | some hv => exact .pure hv
      | none => exact alike_throw ⟨f'.line, hf.line, rfl⟩
    · exact alike_throw ⟨l', hl, rfl⟩

theorem callAlike_apply : CallAlike K (Function.apply settings) (Function.apply settings) := by
  intro f f' vs vs' l l' hf hvs hl m m' hm
  unfold Function.apply
  rw [hm.depth]
  exact callAlike_applyWithin settings _ f f' vs vs' l l' hf hvs hl m m' hm

end

end Eval

theorem alike_evalStatements {K : Likeness τ τ'} (settings : Settings) {p : List (Statement τ)}
    {p' : List (Statement τ')} (h : List.Forall₂ (Statement.Alike K) p p') :
    Eval.DoAlike K (Value.Alike K) (evalStatements settings p) (evalStatements settings p') := by
  unfold evalStatements evalSequence
  have hcall : Eval.CallAlike K _ _ := Eval.callAlike_apply settings
  refine (Eval.alike_evalLastWith hcall (alikeAll_flatMap h)).bind fun o o' ho => ?_
  cases ho with
  | some hv => exact .pure hv
  | none => exact .pure (.number 0)

end Reckon
