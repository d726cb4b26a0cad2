import Mathlib.Data.Nat.Choose.Basic
import Reckon.Proofs.Parse.Append

/-!
# The height of trees

The nesting limit counts levels that are open at once, not the height of the tree. Levels spent on
the first operand of a chain are closed again before the operators after it open theirs, so that a
tree can be higher than the limit; `tallest` is what can be reached with a given number of free
levels. It grows by all the levels at hand with each level more, which gives the closed form
`1 + h * (h - 1) / 2` (`tallest_succ_eq`). No program that the parser accepts has a higher tree
(`height_le_of_parse`), and numbering function literals does not change heights.
-/

set_option autoImplicit false

namespace Reckon

section
variable {τ : Type}

mutual

/-- The number of trees inside one another. -/
def Expr.height : Expr τ → Nat
  | .number .. | .var .. => 1
  | .arithmetic _ left right _ => 1 + max left.height right.height
  | .assign _ value _ => 1 + value.height
  | .function _ _ body _ => 1 + heightAll body
  | .call _ arguments _ => 1 + heightAll arguments

/-- The height of the highest, or zero if there is none. -/
def heightAll : List (Expr τ) → Nat
  | [] => 0
  | e :: es => max e.height (heightAll es)

end

theorem Expr.height_pos (e : Expr τ) : 0 < e.height := by
  cases e <;> rw [Expr.height] <;> omega

theorem heightAll_append (es fs : List (Expr τ)) :
    heightAll (es ++ fs) = max (heightAll es) (heightAll fs) := by
  induction es with
  | nil => simp [heightAll]
  | cons e es ih => rw [List.cons_append, heightAll, heightAll, ih, Nat.max_assoc]

/-! ## Numbering -/

mutual

theorem Expr.height_serial : ∀ (e : Expr τ) (n : Nat), (e.serial.run n).1.height = e.height
  | .number .., _ | .var .., _ => rfl
  | .arithmetic op left right line, n => by
    show 1 + max (left.serial.run n).1.height
      (right.serial.run (left.serial.run n).2).1.height = _
    rw [left.height_serial, right.height_serial, Expr.height]
  | .assign name value line, n => by
    show 1 + (value.serial.run n).1.height = _
    rw [value.height_serial, Expr.height]
  | .function tag params body line, n => by
    show 1 + heightAll ((serialAll body).run (n + 1)).1 = _
    rw [heightAll_serialAll body, Expr.height]
  | .call name arguments line, n => by
    show 1 + heightAll ((serialAll arguments).run n).1 = _
    rw [heightAll_serialAll arguments, Expr.height]

theorem heightAll_serialAll :
    ∀ (es : List (Expr τ)) (n : Nat), heightAll ((serialAll es).run n).1 = heightAll es
  | [], _ => rfl
  | e :: es, n => by
    show max (e.serial.run n).1.height (heightAll ((serialAll es).run (e.serial.run n).2).1) = _
    rw [e.height_serial, heightAll_serialAll es, heightAll]

end

end

/-! ## The highest tree -/

/-- The height that can be reached with `h` free levels: an argument of a call with one level less,
the call around it, and as many operators as the other levels allow. -/
def tallest : Nat → Nat
  | 0 => 0
  | h + 1 => tallest h + 1 + (h - 1)

theorem tallest_le_succ (h : Nat) : tallest h ≤ tallest (h + 1) := by
  rw [tallest]
  omega

theorem tallest_pred_le (h : Nat) : tallest (h - 1) ≤ tallest h := by
  cases h with
  | zero => exact Nat.le_refl _
  | succ h => exact tallest_le_succ h

theorem tallest_succ_eq (h : Nat) : tallest (h + 1) = 1 + (h + 1) * (h + 1 - 1) / 2 := by
  induction h with
  | zero => rfl
  | succ h ih =>
    rw [tallest, ih, Nat.triangle_succ (h + 1)]
    omega

theorem tallest_le (h : Nat) : tallest h ≤ 1 + h * (h - 1) / 2 := by
  cases h with
  | zero => exact Nat.zero_le _
  | succ h => exact Nat.le_of_eq (tallest_succ_eq h)

/-! ## What the parser reads -/

/-- Joining adds a level to the higher operand. -/
theorem Joint.height_combine {j : Joint} {line : Nat} {left right e : Expr Unit}
    (h : j.combine line left right = .ok e) : e.height ≤ 1 + max left.height right.height := by
  cases j with
  | assign =>
    cases left with
    | var x l =>
      cases h
      simp only [Expr.height]
      omega
    | _ => cases h
  | arithmetic op =>
    cases h
    rw [Expr.height]

namespace Reading

section
variable {limit : Nat}

theorem Expression.lt_limit {d m : Nat} {ts rest : List Located} {e : Expr Unit}
    (h : Expression limit d m ts e rest) : d < limit := by
  cases h <;> assumption

mutual

theorem Expression.height_le {d m h : Nat} {ts rest : List Located} {e : Expr Unit} :
    Expression limit d m ts e rest → limit - d = h → e.height ≤ tallest h
  | .emptyFunction hd _, hh => by
    obtain ⟨k, rfl⟩ : ∃ k, h = k + 1 := ⟨h - 1, by omega⟩
    rw [tallest, Expr.height, heightAll]
    omega
  | .function hd _ hb, hh => by
    obtain ⟨k, rfl⟩ : ∃ k, h = k + 1 := ⟨h - 1, by omega⟩
    have hbody := hb.height_le (h := k) (by omega)
    rw [tallest, Expr.height]
    omega
  | .operation hd ht hc, hh => by
    obtain ⟨k, rfl⟩ : ∃ k, h = k + 1 := ⟨h - 1, by omega⟩
    have hfirst := ht.height_le (h := k) (by omega)
    have hlow : tallest (k - 1) ≤ tallest k + 1 := Nat.le_succ_of_le (tallest_pred_le k)
    rw [tallest]
    exact hc.height_le (by omega) hfirst hlow

theorem Term.height_le {d h : Nat} {ts rest : List Located} {e : Expr Unit} :
    Term limit d ts e rest → limit - d = h → e.height ≤ tallest h + 1
  | .number, _ => by simp [Expr.height]
  | .var _, _ => by simp [Expr.height]
  | .emptyCall, _ => by simp [Expr.height, heightAll]
  | .call hs, hh => by
    have := hs.height_le hh
    rw [Expr.height]
    omega
  | .group he, hh => Nat.le_succ_of_le (he.height_le hh)

/-- Each joint opens a level, and its right operand needs another one. -/
theorem Chain.height_le {d m h x : Nat} {ts rest : List Located} {left e : Expr Unit} :
    Chain limit d m ts left e rest → limit - d = h → left.height ≤ x → tallest (h - 1) ≤ x →
      e.height ≤ x + (h - 1)
  | .stop _, _, hleft, _ => Nat.le_add_right_of_le hleft
  | .fold _ _ _ hr hcomb hc, hh, hleft, hlow => by
    have hlimit := hr.lt_limit
    have hright := hr.height_le (h := h - 1) (by omega)
    have hjoined := Joint.height_combine hcomb
    have hpred := tallest_pred_le (h - 1)
    have he := hc.height_le (h := h - 1) (x := x + 1) (by omega) (by omega) (by omega)
    omega

theorem Expressions.height_le {d h : Nat} {ts rest : List Located} {es : List (Expr Unit)} :
    Expressions limit d ts es rest → limit - d = h → heightAll es ≤ tallest h
  | .last he _, hh => by
    have := he.height_le hh
    rw [heightAll, heightAll]
    omega
  | .more he hs, hh => by
    have := he.height_le hh
    have := hs.height_le hh
    rw [heightAll]
    omega

end

theorem Program.height_le {d : Nat} {ts : List Located} {program : List (Statement Unit)}
    (h : Program limit d ts program) :
    heightAll (program.flatMap Statement.expressions) ≤ tallest (limit - d) := by
  induction h with
  | last hes =>
    have := hes.height_le rfl
    simpa using this
  | more hes _ ih =>
    have := hes.height_le rfl
    rw [List.flatMap_cons, heightAll_append]
    exact Nat.max_le.2 ⟨this, ih⟩

end

end Reading

theorem height_le_of_parse {limit : Nat} {source : String} {program : List (Statement Unit)}
    (h : parse limit source = .ok program) :
    heightAll (program.flatMap Statement.expressions) ≤ tallest limit := by
  obtain ⟨ts, -, hts⟩ := parse_eq_ok h
  exact (parseTokens_eq_ok_iff.1 hts).height_le

end Reckon
