import Reckon.Proofs.Alike
import Reckon.Proofs.Session.Compose

/-!
# Numbered function literals

The function literals of a program get consecutive serial numbers, in the order in which they start
and from the first free one on (`consecutive_numbered`), and nothing else of the program changes
(`alike_numbered`). Programs that are alike are alike when they are numbered, under every relation
of their numbers that goes on from the first free ones (`numbered_alike`).
-/

set_option autoImplicit false

namespace Reckon

/-! ## Function literals -/

section
variable {τ τ' : Type}

mutual

/-- The function literals of a tree, in the order in which they start. -/
def Expr.literals : Expr τ → List (Function τ)
  | .number .. | .var .. => []
  | .arithmetic _ left right _ => left.literals ++ right.literals
  | .assign _ value _ => value.literals
  | .function tag params body line => ⟨tag, params, body, line⟩ :: literalsAll body
  | .call _ arguments _ => literalsAll arguments

def literalsAll : List (Expr τ) → List (Function τ)
  | [] => []
  | e :: es => e.literals ++ literalsAll es

end

theorem literalsAll_append (es fs : List (Expr τ)) :
    literalsAll (es ++ fs) = literalsAll es ++ literalsAll fs := by
  induction es with
  | nil => rfl
  | cons e es ih => rw [List.cons_append, literalsAll, literalsAll, ih, List.append_assoc]

/-- The function literals of a program. -/
def programLiterals (program : List (Statement τ)) : List (Function τ) :=
  literalsAll (program.flatMap Statement.expressions)

theorem programLiterals_cons (s : Statement τ) (program : List (Statement τ)) :
    programLiterals (s :: program) = literalsAll s.expressions ++ programLiterals program := by
  rw [programLiterals, List.flatMap_cons, literalsAll_append, programLiterals]

variable {K : Likeness τ τ'}

mutual

theorem Expr.Alike.literals {e : Expr τ} {e' : Expr τ'} :
    e.Alike K e' → List.Forall₂ (Function.Alike K) e.literals e'.literals
  | .number _ => .nil
  | .var _ _ => .nil
  | .arithmetic hleft hright _ => List.rel_append hleft.literals hright.literals
  | .assign _ hvalue _ => hvalue.literals
  | .function hrelated hparams hbody hl =>
    .cons ⟨hrelated, rfl, hparams, hbody, hl⟩ hbody.literals
  | .call _ harguments _ => harguments.literals

theorem AlikeAll.literals {es : List (Expr τ)} {es' : List (Expr τ')} :
    AlikeAll K es es' → List.Forall₂ (Function.Alike K) (literalsAll es) (literalsAll es')
  | .nil => .nil
  | .cons he hes => List.rel_append he.literals hes.literals

end

end

/-! ## Consecutive numbers -/

/-- The functions have the numbers from `n` on, and `next` is the first number after them. -/
structure Consecutive (n : Nat) (fs : List (Function Nat)) (next : Nat) : Prop where
  tags : fs.map Function.tag = List.range' n fs.length
  next : next = n + fs.length

namespace Consecutive

variable {n m k : Nat} {fs gs : List (Function Nat)}

theorem nil (n : Nat) : Consecutive n [] n := ⟨rfl, rfl⟩

theorem cons {f : Function Nat} (hf : f.tag = n) (h : Consecutive (n + 1) fs m) :
    Consecutive n (f :: fs) m := by
  refine ⟨?_, ?_⟩
  · rw [List.map_cons, hf, h.tags, List.length_cons, List.range'_succ]
  · rw [h.next, List.length_cons]
    omega

theorem append (hf : Consecutive n fs m) (hg : Consecutive m gs k) :
    Consecutive n (fs ++ gs) k := by
  obtain ⟨hf, rfl⟩ := hf
  obtain ⟨hg, rfl⟩ := hg
  refine ⟨?_, ?_⟩
  · rw [List.map_append, hf, hg, List.length_append, List.range'_append_1]
  · rw [List.length_append, Nat.add_assoc]

theorem tag_eq {f : Function Nat} (h : Consecutive n fs m) {i : Nat} (hi : fs[i]? = some f) :
    f.tag = n + i := by
  have hlt : i < fs.length := (List.getElem?_eq_some_iff.1 hi).1
  have htag : (fs.map Function.tag)[i]? = some f.tag := by rw [List.getElem?_map, hi]; rfl
  rw [h.tags, List.getElem?_range' hlt, Option.some.injEq] at htag
  omega

end Consecutive

section
variable {τ τ' : Type}

mutual

theorem Expr.consecutive_serial : ∀ (e : Expr τ) (n : Nat),
    Consecutive n (e.serial.run n).1.literals (e.serial.run n).2
  | .number .., n | .var .., n => .nil n
  | .arithmetic _ left right _, n =>
    (left.consecutive_serial n).append (right.consecutive_serial (left.serial.run n).2)
  | .assign _ value _, n => value.consecutive_serial n
  | .function _ _ body _, n => (consecutive_serialAll body (n + 1)).cons rfl
  | .call _ arguments _, n => consecutive_serialAll arguments n

theorem consecutive_serialAll : ∀ (es : List (Expr τ)) (n : Nat),
    Consecutive n (literalsAll ((serialAll es).run n).1) ((serialAll es).run n).2
  | [], n => .nil n
  | e :: es, n => (e.consecutive_serial n).append (consecutive_serialAll es (e.serial.run n).2)

end

theorem consecutive_numbered (program : List (Statement τ)) (n : Nat) :
    Consecutive n (programLiterals (numbered program n).1) (numbered program n).2 := by
  induction program generalizing n with
  | nil => exact .nil n
  | cons s program ih =>
    rw [numbered_cons, programLiterals_cons]
    exact (consecutive_serialAll s.expressions n).append (ih (s.serial.run n).2)

/-! ## What numbering keeps -/

/-- Tags do not count. -/
def Likeness.upToTags : Likeness τ τ' where
  names _ := True
  lines := Eq
  functions _ _ := True

mutual

theorem Expr.alike_serial : ∀ (e : Expr τ) (n : Nat), e.Alike .upToTags (e.serial.run n).1
  | .number .., _ => .number rfl
  | .var .., _ => .var trivial rfl
  | .arithmetic _ left right _, n =>
    .arithmetic (left.alike_serial n) (right.alike_serial (left.serial.run n).2) rfl
  | .assign _ value _, n => .assign trivial (value.alike_serial n) rfl
  | .function _ _ body _, n =>
    .function trivial (fun _ _ => trivial) (alikeAll_serialAll body (n + 1)) rfl
  | .call _ arguments _, n => .call trivial (alikeAll_serialAll arguments n) rfl

theorem alikeAll_serialAll : ∀ (es : List (Expr τ)) (n : Nat),
    AlikeAll .upToTags es ((serialAll es).run n).1
  | [], _ => .nil
  | e :: es, n => .cons (e.alike_serial n) (alikeAll_serialAll es (e.serial.run n).2)

end

theorem alike_numbered (program : List (Statement τ)) (n : Nat) :
    List.Forall₂ (Statement.Alike .upToTags) program (numbered program n).1 := by
  induction program generalizing n with
  | nil => exact .nil
  | cons s program ih =>
    rw [numbered_cons]
    exact .cons (alikeAll_serialAll s.expressions n) (ih (s.serial.run n).2)

/-! ## Alike programs -/

/-- `T` relates the numbers from `n` on to those from `n'` on. -/
def Aligned (T : Nat → Nat → Prop) (n n' : Nat) : Prop := ∀ k, T (n + k) (n' + k)

variable {T : Nat → Nat → Prop}

/-- As many numbers are used up for either of two alike lists of literals. -/
theorem Aligned.next {K : Likeness Nat Nat} {n n' m m' : Nat} (h : Aligned T n n')
    {fs fs' : List (Function Nat)} (hf : Consecutive n fs m) (hf' : Consecutive n' fs' m')
    (halike : List.Forall₂ (Function.Alike K) fs fs') : Aligned T m m' := by
  intro k
  rw [hf.next, hf'.next, ← halike.length_eq, Nat.add_assoc, Nat.add_assoc]
  exact h _

section
variable {K : Likeness τ τ'}

mutual

theorem Expr.Alike.serial {e : Expr τ} {e' : Expr τ'} {n n' : Nat} :
    e.Alike K e' → Aligned T n n' →
      (e.serial.run n).1.Alike (.upToLines T) (e'.serial.run n').1
  | .number _, _ => .number trivial
  | .var _ _, _ => .var trivial trivial
  | @Expr.Alike.arithmetic _ _ _ _ left right left' right' _ _ hleft hright _, h => by
    have hl := hleft.serial h
    have hnext := h.next (left.consecutive_serial n) (left'.consecutive_serial n') hl.literals
    exact .arithmetic hl (hright.serial hnext) trivial
  | .assign _ hvalue _, h => .assign trivial (hvalue.serial h) trivial
  | .function _ _ hbody _, h => by
    have hnext : Aligned T (n + 1) (n' + 1) := fun k => by
      rw [Nat.add_assoc, Nat.add_assoc]
      exact h _
    exact .function (h 0) (fun _ _ => trivial) (hbody.serialAll hnext) trivial
  | .call _ harguments _, h => .call trivial (harguments.serialAll h) trivial

theorem AlikeAll.serialAll {es : List (Expr τ)} {es' : List (Expr τ')} {n n' : Nat} :
    AlikeAll K es es' → Aligned T n n' →
      AlikeAll (.upToLines T) ((serialAll es).run n).1 ((serialAll es').run n').1
  | .nil, _ => .nil
  | @AlikeAll.cons _ _ _ e e' _ _ he hes, h => by
    have hhead := he.serial h
    have hnext := h.next (e.consecutive_serial n) (e'.consecutive_serial n') hhead.literals
    exact .cons hhead (hes.serialAll hnext)

end

theorem numbered_alike {p : List (Statement τ)} {p' : List (Statement τ')}
    (hp : List.Forall₂ (Statement.Alike K) p p') {n n' : Nat} (h : Aligned T n n') :
    List.Forall₂ (Statement.Alike (.upToLines T)) (numbered p n).1 (numbered p' n').1 := by
  induction hp generalizing n n' with
  | nil => exact .nil
  | @cons s s' p p' hs _ ih =>
    have hhead := hs.serialAll h
    have hnext := h.next (consecutive_serialAll s.expressions n)
      (consecutive_serialAll s'.expressions n') hhead.literals
    rw [numbered_cons, numbered_cons]
    exact .cons hhead (ih hnext)

end

end

end Reckon
