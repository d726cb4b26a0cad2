import Reckon.Eval
import Reckon.Proofs.Simulation

/-!
# What evaluation changes

`Expr.targets` are the names that an expression assigns to, `Expr.mentions` those that it reads or
calls; the bodies of its function literals do not count, since evaluation does not enter them.
`eval_footprint` says that these names alone decide which bindings an evaluation may touch, however
it ends: the functions that are called are found in the scope and may do what they want, but they
leave the machine's scope as it was (`Eval.Still`).
-/

set_option autoImplicit false

namespace Reckon

/-! ## The names of an expression -/

section
variable {τ : Type}

mutual

/-- The names that are assigned to outside function bodies. -/
def Expr.targets : Expr τ → List String
  | .number .. | .var .. | .function .. => []
  | .arithmetic _ left right _ => left.targets ++ right.targets
  | .assign name value _ => name :: value.targets
  | .call _ arguments _ => targetsAll arguments

def targetsAll : List (Expr τ) → List String
  | [] => []
  | e :: es => e.targets ++ targetsAll es

end

mutual

/-- The names that occur as variables or are called outside function bodies. -/
def Expr.mentions : Expr τ → List String
  | .number .. | .function .. => []
  | .var name _ => [name]
  | .arithmetic _ left right _ => left.mentions ++ right.mentions
  | .assign _ value _ => value.mentions
  | .call name arguments _ => name :: mentionsAll arguments

def mentionsAll : List (Expr τ) → List String
  | [] => []
  | e :: es => e.mentions ++ mentionsAll es

end

end

/-! ## Footprints -/

namespace Scope

variable {τ : Type}

/-- How a scope may change: the tables around it stay, and so do the names in it; only `targets` get
other values; and names become bound only if they are `targets`, or else `mentions` that were bound
nowhere and are zero now. -/
structure Footprint (targets mentions : List String) (s s' : Scope τ) : Prop where
  outer : s'.outer = s.outer
  bound : ∀ name, s.containsLocal name = true → s'.containsLocal name = true
  kept : ∀ name v, name ∉ targets → s.getLocal? name = some v → s'.getLocal? name = some v
  fresh : ∀ name v, s.getLocal? name = none → s'.getLocal? name = some v →
    name ∈ targets ∨ name ∈ mentions ∧ v = .zero ∧ s.lookup? name = none

theorem containsLocal_eq (s : Scope τ) (name : String) :
    s.containsLocal name = (s.getLocal? name).isSome :=
  Std.ExtTreeMap.contains_eq_isSome_getElem?

theorem lookup?_of_getLocal?_eq_some {s : Scope τ} {name : String} {v : Value τ}
    (h : s.getLocal? name = some v) : s.lookup? name = some v := by
  unfold getLocal? at h
  rw [lookup?, List.findSome?_cons, h]

/-- Where the innermost table says nothing, the tables around it decide. -/
theorem lookup?_of_getLocal?_eq_none {s : Scope τ} {name : String}
    (h : s.getLocal? name = none) :
    s.lookup? name = s.outer.findSome? fun table => table[name]? := by
  unfold getLocal? at h
  rw [lookup?, List.findSome?_cons, h]

namespace Footprint

variable {A A' R R' : List String} {s s₁ s₂ : Scope τ}

theorem refl (A R : List String) (s : Scope τ) : s.Footprint A R s :=
  ⟨rfl, fun _ h => h, fun _ _ _ h => h, fun _ _ h h' => by rw [h] at h'; cases h'⟩

theorem mono (h : s.Footprint A R s₁) (hA : A ⊆ A') (hR : R ⊆ R') : s.Footprint A' R' s₁ := by
  refine ⟨h.outer, h.bound, fun name v hn => h.kept name v fun hin => hn (hA hin), ?_⟩
  intro name v hs hs₁
  rcases h.fresh name v hs hs₁ with hin | ⟨hin, hv⟩
  · exact .inl (hA hin)
  · exact .inr ⟨hR hin, hv⟩

theorem trans (h : s.Footprint A R s₁) (h' : s₁.Footprint A R s₂) : s.Footprint A R s₂ := by
  refine ⟨h'.outer.trans h.outer, fun name hb => h'.bound name (h.bound name hb),
    fun name v hn hv => h'.kept name v hn (h.kept name v hn hv), ?_⟩
  intro name v hs hs₂
  by_cases hn : name ∈ A
  · exact .inl hn
  cases hs₁ : s₁.getLocal? name with
  | some v₁ =>
    -- bound on the way, and kept from there on
    obtain rfl : v₁ = v := by
      rw [h'.kept name v₁ hn hs₁] at hs₂
      exact Option.some.inj hs₂
    exact h.fresh name v₁ hs hs₁
  | none =>
    rcases h'.fresh name v hs₁ hs₂ with hin | ⟨hin, hv, hnowhere⟩
    · exact .inl hin
    · refine .inr ⟨hin, hv, ?_⟩
      rw [lookup?_of_getLocal?_eq_none hs₁, h.outer] at hnowhere
      rw [lookup?_of_getLocal?_eq_none hs, hnowhere]

theorem write (s : Scope τ) (name : String) (v : Value τ) :
    s.Footprint [name] R (s.write name v) := by
  refine ⟨rfl, fun other hb => ?_, fun other w hn hw => ?_, fun other w hs hw => ?_⟩
  · rw [containsLocal_eq, getLocal?_write]
    rw [containsLocal_eq] at hb
    split
    · rfl
    · exact hb
  · rw [getLocal?_write, if_neg fun h => hn (by simp [h])]
    exact hw
  · rw [getLocal?_write] at hw
    split at hw
    · next h => exact .inl (by simp [h])
    · rw [hs] at hw
      cases hw

/-- Reading binds the name only where it is bound nowhere. -/
theorem read (s : Scope τ) (name : String) : s.Footprint A [name] (s.read name).2 := by
  unfold Scope.read
  cases hnone : s.lookup? name with
  | some v => exact refl A [name] s
  | none =>
    have hw : s.Footprint [name] [name] (s.write name .zero) := write s name .zero
    have hlocal : s.getLocal? name = none := by
      rw [lookup?, List.findSome?_cons] at hnone
      rw [getLocal?]
      cases h : s.locals[name]? with
      | none => rfl
      | some v => rw [h] at hnone; cases hnone
    refine ⟨rfl, hw.bound, fun other w _ hother => ?_, fun other w hs hother => ?_⟩
    · rw [getLocal?_write, if_neg]
      · exact hother
      · rintro rfl
        rw [hlocal] at hother
        cases hother
    · rw [getLocal?_write] at hother
      split at hother
      · next h =>
        subst h
        exact .inr ⟨by simp, (Option.some.inj hother).symm, hnone⟩
      · rw [hs] at hother
        cases hother

end Footprint

end Scope

/-! ## The parts of the evaluator -/

namespace Eval

variable {τ α β : Type}

/-- The machine that a computation leaves behind, whether it fails or not. -/
def after (p : Eval τ α) (m : Machine τ) : Machine τ :=
  match p m with
  | .ok _ m' => m'
  | .error _ m' => m'

/-- The computation changes nothing in the scope. -/
def Still (p : Eval τ α) : Prop := ∀ m, (after p m).scope = m.scope

/-- The computation changes the scope within a footprint. -/
def Within (A R : List String) (p : Eval τ α) : Prop :=
  ∀ m : Machine τ, m.scope.Footprint A R (after p m).scope

variable {A A' R R' : List String}

theorem Still.within {p : Eval τ α} (h : Still p) (A R : List String) : Within A R p := by
  intro m
  rw [h m]
  exact .refl A R m.scope

theorem Within.mono {p : Eval τ α} (h : Within A R p) (hA : A ⊆ A') (hR : R ⊆ R') :
    Within A' R' p :=
  fun m => (h m).mono hA hR

theorem still_pure (a : α) : Still (pure a : Eval τ α) := fun _ => rfl

theorem still_throw (e : RuntimeError) : Still (throw e : Eval τ α) := fun _ => rfl

theorem still_ofExcept (x : Except RuntimeError α) :
    Still (MonadExcept.ofExcept x : Eval τ α) := by
  cases x with
  | ok a => exact still_pure a
  | error e => exact still_throw e

theorem within_read (A : List String) (name : String) :
    Within A [name] (read name : Eval τ (Value τ)) :=
  fun m => .read m.scope name

theorem within_write (R : List String) (name : String) (v : Value τ) :
    Within [name] R (write name v) :=
  fun m => .write m.scope name v

theorem after_bind_of_ok {p : Eval τ α} {f : α → Eval τ β} {m m' : Machine τ} {a : α}
    (h : p m = .ok a m') : after (p >>= f) m = after (f a) m' := by
  rw [after, bind_of_ok h, after]

theorem after_bind_of_error {p : Eval τ α} {f : α → Eval τ β} {m m' : Machine τ}
    {e : RuntimeError} (h : p m = .error e m') : after (p >>= f) m = m' := by
  rw [after, bind_of_error h]

theorem Within.bind {p : Eval τ α} {f : α → Eval τ β} (h : Within A R p)
    (k : ∀ a, Within A R (f a)) : Within A R (p >>= f) := by
  intro m
  have hp := h m
  cases hr : p m with
  | ok a m' =>
    rw [after, hr] at hp
    rw [after_bind_of_ok hr]
    exact hp.trans (k a m')
  | error e m' =>
    rw [after, hr] at hp
    rw [after_bind_of_error hr]
    exact hp

theorem Still.bind {p : Eval τ α} {f : α → Eval τ β} (h : Still p) (k : ∀ a, Still (f a)) :
    Still (p >>= f) := by
  intro m
  have hp := h m
  cases hr : p m with
  | ok a m' =>
    rw [after, hr] at hp
    rw [after_bind_of_ok hr, k a m', hp]
  | error e m' =>
    rw [after, hr] at hp
    rw [after_bind_of_error hr, hp]

/-- What happens in the frame of a call happens in a table that is given up at its end. -/
theorem still_inFrame {p : Eval τ α} (h : Within A R p) (pairs : List (String × Value τ)) :
    Still (inFrame pairs p) := by
  intro m
  have hpop : ∀ s : Scope τ, s.outer = m.scope.locals :: m.scope.outer → s.pop = m.scope := by
    intro s hs
    rw [Scope.pop, Scope.parent?, hs]
    rfl
  have hp := (h ⟨m.scope.push.writeAll pairs, m.callDepth + 1⟩).outer
  rw [Scope.outer_writeAll] at hp
  unfold after at hp ⊢
  unfold inFrame
  cases hr : p ⟨m.scope.push.writeAll pairs, m.callDepth + 1⟩ with
  | ok a m' =>
    simp only [hr] at hp ⊢
    exact hpop _ hp
  | error e m' =>
    simp only [hr] at hp ⊢
    exact hpop _ hp

end Eval

/-! ## Expressions and calls -/

namespace Eval

section
variable {τ : Type} {division : Division} {call : Call τ}

/-- No call changes the scope. -/
def StillCalls (call : Call τ) : Prop := ∀ f values line, Still (call f values line)

mutual

theorem within_evalWith (hcall : StillCalls call) :
    ∀ e : Expr τ, Within e.targets e.mentions (evalWith division call e)
  | .number x _ => by
    rw [evalWith]
    exact (still_pure _).within _ _
  | .var name _ => by
    rw [evalWith, Expr.mentions]
    exact within_read _ name
  | .arithmetic op left right line => by
    rw [evalWith, Expr.targets, Expr.mentions]
    refine ((within_evalWith hcall left).mono (by simp) (by simp)).bind fun v => ?_
    refine ((still_ofExcept _).within _ _).bind fun x => ?_
    refine ((within_evalWith hcall right).mono (by simp) (by simp)).bind fun w => ?_
    refine ((still_ofExcept _).within _ _).bind fun y => ?_
    refine ((still_ofExcept _).within _ _).bind fun z => ?_
    exact (still_pure _).within _ _
  | .assign name value _ => by
    rw [evalWith, Expr.targets, Expr.mentions]
    refine ((within_evalWith hcall value).mono (by simp) (List.Subset.refl _)).bind fun v => ?_
    refine ((within_write _ name v).mono (by simp) (List.Subset.refl _)).bind fun _ => ?_
    exact (still_pure _).within _ _
  | .function tag params body line => by
    rw [evalWith]
    exact (still_pure _).within _ _
  | .call name arguments line => by
    rw [evalWith, Expr.targets, Expr.mentions]
    refine ((within_read _ name).mono (List.Subset.refl _) (by simp)).bind fun v => ?_
    cases v with
    | number x => exact (still_throw _).within _ _
    | function f =>
      -- the arguments are the caller's business, the body is not
      refine ((within_evalAllWith hcall arguments).mono (by simp) (by simp)).bind fun values => ?_
      exact (hcall f values line).within _ _

theorem within_evalAllWith (hcall : StillCalls call) : ∀ es : List (Expr τ),
    Within (targetsAll es) (mentionsAll es) (evalAllWith division call es)
  | [] => by
    rw [evalAllWith]
    exact (still_pure _).within _ _
  | e :: es => by
    rw [evalAllWith, targetsAll, mentionsAll]
    refine ((within_evalWith hcall e).mono (by simp) (by simp)).bind fun v => ?_
    refine ((within_evalAllWith hcall es).mono (by simp) (by simp)).bind fun vs => ?_
    exact (still_pure _).within _ _

end

theorem within_evalLastWith (hcall : StillCalls call) (es : List (Expr τ)) :
    Within (targetsAll es) (mentionsAll es) (evalLastWith division call es) :=
  (within_evalAllWith hcall es).bind fun _ => (still_pure _).within _ _

end

section
variable {τ : Type} (settings : Settings)

/-- By induction on the number of calls that may still be nested: the calls of the body leave the
frame as it is, and the frame itself is given up. -/
theorem stillCalls_applyWithin (n : Nat) :
    StillCalls (Function.applyWithin settings n : Call τ) := by
  induction n with
  | zero =>
    intro f values line
    rw [Function.applyWithin]
    split
    · exact still_throw _
    · exact still_throw _
  | succ n ih =>
    intro f values line
    rw [Function.applyWithin]
    split
    · refine (still_inFrame (within_evalLastWith ih f.body) _).bind fun o => ?_
      cases o with
      | some value => exact still_pure value
      | none => exact still_throw _
    · exact still_throw _

theorem stillCalls_apply : StillCalls (Function.apply settings : Call τ) :=
  fun f values line m => stillCalls_applyWithin settings _ f values line m

end

end Eval

/-- However an evaluation ends, it changes the scope within the footprint of its own expressions;
that of a call is the footprint of its arguments, and its body changes nothing at all. -/
theorem eval_footprint {τ : Type} (settings : Settings) (m : Machine τ) :
    (∀ e : Expr τ, m.scope.Footprint e.targets e.mentions
      (Eval.after (e.eval settings) m).scope) ∧
    (∀ es : List (Expr τ), m.scope.Footprint (targetsAll es) (mentionsAll es)
      (Eval.after (evalSequence settings es) m).scope) ∧
    (∀ program : List (Statement τ),
      m.scope.Footprint (targetsAll (program.flatMap Statement.expressions))
        (mentionsAll (program.flatMap Statement.expressions))
        (Eval.after (evalStatements settings program) m).scope) ∧
    (∀ (f : Function τ) (arguments : List (Expr τ)) (line : Nat),
      m.scope.Footprint (targetsAll arguments) (mentionsAll arguments)
        (Eval.after (f.invoke settings arguments line) m).scope) ∧
    ∀ (f : Function τ) (values : List (Value τ)) (line : Nat),
      (Eval.after (f.apply settings values line) m).scope = m.scope := by
  have hcall : Eval.StillCalls (Function.apply settings : Call τ) := Eval.stillCalls_apply settings
  refine ⟨fun e => Eval.within_evalWith hcall e m,
    fun es => Eval.within_evalLastWith hcall es m, fun program => ?_, fun f arguments line => ?_,
    fun f values line => hcall f values line m⟩
  · have hsequence : Eval.Within _ _ (evalSequence settings _) :=
      Eval.within_evalLastWith hcall (program.flatMap Statement.expressions)
    exact hsequence.bind (fun _ => (Eval.still_pure _).within _ _) m
  · have harguments : Eval.Within _ _ (evalAllWith settings.division _ arguments) :=
      Eval.within_evalAllWith hcall arguments
    exact harguments.bind (fun values => (hcall f values line).within _ _) m

end Reckon
