import Reckon.Proofs.Parse.Bound
import Reckon.Proofs.Parse.Failing

/-!
# Runs of the parser that fail

The parser fails exactly where the relations of `Reckon.Proofs.Parse.Failing` say so: it reports their
error, stops in front of their rest, and leaves the levels of their pending operators open
(`expression_eq_error_iff`, `statements_eq_error_iff`). A run from a failure is computed along its
derivation; the converse holds because tokens that do not fail are read, and then there is no error.
-/

set_option autoImplicit false

namespace Reckon

namespace Parser

variable {α : Type} {b : Bounds}

theorem nested_of_error {p : Parser α} {ts rest : List Located} {d k : Nat} {e : SyntaxError}
    (hd : d < b.limit) (h : p ⟨ts, d + 1⟩ = .error e ⟨rest, d + 1 + k⟩) :
    nested b p ⟨ts, d⟩ = .error e ⟨rest, d + k⟩ := by
  rw [nested_eq, if_neg (by simpa using hd)]
  simp only [h]
  congr 2
  omega

/-- A joint that has got its level is followed by its right operand. -/
theorem chain_joint {expression : Nat → Parser (Expr Unit)} {m n opened d : Nat} {t : Located}
    {j : Joint} {ts : List Located} {left : Expr Unit} (hj : Joint.ofToken? t.token = some j)
    (hm : j.continues m = true) (hd : d < b.limit) :
    chain b expression m (n + 1) opened left ⟨t :: ts, d⟩ =
      (expression j.precedence >>= fun right =>
        match j.combine t.line left right with
        | .ok e => chain b expression m n (opened + 1) e
        | .error e => throw e) ⟨ts, d + 1⟩ := by
  refine (bind_of_ok (joint_token hj hm ts)).trans ?_
  exact bind_of_ok (show enter b t.line ⟨ts, d⟩ = .ok () _ from if_neg (Nat.not_le.2 hd))

theorem list_of_error {item : Parser α} {c c' : Cursor} {e : SyntaxError} {k : Nat}
    (h : item c = .error e c') : list item k c = .error e c' := by
  cases k <;> exact bind_of_error h

theorem listUpTo_of_error {closing : Mark} {item : Parser α} {c c' : Cursor} {e : SyntaxError}
    {k : Nat} (h : item c = .error e c') : listUpTo b closing item k c = .error e c' := by
  cases k <;> exact bind_of_error h

theorem listUpTo_more_of_error {closing : Mark} {item : Parser α} {a : α} {l d k : Nat}
    {ts mid : List Located} {c' : Cursor} {e : SyntaxError}
    (h : item ⟨ts, d⟩ = .ok a ⟨⟨.mark .comma, l⟩ :: mid, d⟩)
    (hs : listUpTo b closing item k ⟨mid, d⟩ = .error e c') :
    listUpTo b closing item (k + 1) ⟨ts, d⟩ = .error e c' := by
  rw [listUpTo, bind_of_ok h]
  refine (bind_of_ok (show next _ = .ok (some ⟨.mark .comma, l⟩) ⟨mid, d⟩ from rfl)).trans ?_
  simp only [↓reduceIte]
  exact bind_of_error hs

end Parser

namespace Failing

open Reckon.Parser
open Reading (NotNext)

variable {α : Type} {b : Bounds}

/-! ## From failures to runs -/

theorem Misses.run {m : Mark} {ts rest : List Located} {e : SyntaxError}
    (h : Misses b m ts e rest) (d : Nat) : expect b m ⟨ts, d⟩ = .error e ⟨rest, d⟩ := by
  cases h with
  | token ht =>
    refine (bind_of_ok (show next _ = .ok (some _) ⟨rest, d⟩ from rfl)).trans ?_
    simp only [ht, ↓reduceIte]
    rfl
  | finish => rfl

theorem Nameless.run {ts rest : List Located} {e : SyntaxError} (h : Nameless b ts e rest)
    (d : Nat) : name b ⟨ts, d⟩ = .error e ⟨rest, d⟩ := by
  cases h with
  | @token t _ ht =>
    obtain ⟨token, l⟩ := t
    cases token with
    | name x => exact absurd ⟨x, rfl⟩ ht
    | number _ => rfl
    | mark _ => rfl
  | finish => rfl

theorem Unclosed.run {item : Parser α} {a : α} {d k : Nat} {ts mid rest : List Located}
    {e : SyntaxError} (h : Unclosed b mid e rest) (hitem : item ⟨ts, d⟩ = .ok a ⟨mid, d⟩) :
    listUpTo b .closeParen item (k + 1) ⟨ts, d⟩ = .error e ⟨rest, d⟩ := by
  rw [listUpTo, bind_of_ok hitem]
  cases h with
  | token ht =>
    rw [not_or] at ht
    refine (bind_of_ok (show next _ = .ok (some _) ⟨rest, d⟩ from rfl)).trans ?_
    simp only [ht, ↓reduceIte]
    rfl
  | finish => rfl

theorem Termless.run {ts rest : List Located} {e : SyntaxError} (h : Termless b ts e rest)
    (expression : Nat → Parser (Expr Unit)) (n d : Nat) :
    term b expression n ⟨ts, d⟩ = .error e ⟨rest, d⟩ := by
  cases h with
  | @token t _ ht =>
    obtain ⟨token, l⟩ := t
    cases token with
    | name x => exact absurd (.inr (.inl ⟨x, rfl⟩)) ht
    | number x => exact absurd (.inl ⟨x, rfl⟩) ht
    | mark m =>
      cases m with
      | openParen => exact absurd (.inr (.inr rfl)) ht
      | _ => rfl
  | finish => rfl

theorem Names.run {ts rest : List Located} {e : SyntaxError} (h : Names b ts e rest) {k : Nat}
    (hk : ts.length ≤ k) (d : Nat) :
    listUpTo b .closeParen (Parser.name b) k ⟨ts, d⟩ = .error e ⟨rest, d⟩ := by
  induction h generalizing k with
  | name h => exact listUpTo_of_error (h.run d)
  | separator h =>
    rw [List.length_cons] at hk
    obtain ⟨k, rfl⟩ : ∃ k', k = k' + 1 := ⟨k - 1, by omega⟩
    exact h.run rfl
  | more _ ih =>
    simp only [List.length_cons] at hk
    obtain ⟨k, rfl⟩ : ∃ k', k = k' + 1 := ⟨k - 1, by omega⟩
    exact listUpTo_more_of_error rfl (ih (by omega))

mutual

theorem Expression.run {d m : Nat} {ts pending rest : List Located} {e : SyntaxError} :
    Expression b d m ts e pending rest → ∀ n : Nat, ts.length ≤ n →
      expressionWithin b n m ⟨ts, d⟩ = .error e ⟨rest, d + pending.length⟩
  | .tooDeep hd => by
    intro n hn
    rw [expressionWithin_eq hn (Nat.le_succ n), expressionWithin, nested_eq, if_pos hd]
    rfl
  | .literal hd h => by
    intro n hn
    rw [expressionWithin_eq hn (Nat.le_succ n)]
    rw [List.length_cons] at hn
    refine nested_of_error hd ?_
    refine (bind_of_ok (show ahead .function _ = .ok true _ from rfl)).trans ?_
    exact h.run n (by omega)
  | .term hd hnot h => by
    intro n hn
    rw [expressionWithin_eq hn (Nat.le_succ n)]
    refine nested_of_error hd ?_
    refine (bind_of_ok (ahead_of_notNext hnot)).trans ?_
    exact bind_of_error (h.run n (by omega))
  | .chain hd ht h => by
    intro n hn
    rw [expressionWithin_eq hn (Nat.le_succ n)]
    have hlt := ht.length_lt
    have hnot : NotNext .function ts := by
      obtain ⟨t, mid, rfl, hm⟩ := ht.opens
      exact fun he => by simpa using hm _ he
    refine nested_of_error hd ?_
    refine (bind_of_ok (ahead_of_notNext hnot)).trans ?_
    refine (bind_of_ok (ht.run n (by omega))).trans ?_
    exact bind_of_error (h.run n n 0 (by omega) (by omega))

theorem Literal.run {d l : Nat} {ts pending rest : List Located} {e : SyntaxError} :
    Literal b d ts e pending rest → ∀ n : Nat, ts.length ≤ n →
      functionLiteral b (expressionWithin b n) n ⟨⟨.mark .function, l⟩ :: ts, d⟩ =
        .error e ⟨rest, d + pending.length⟩
  | .parenthesis h => by
    intro n _
    refine (bind_of_ok (expect_mark ..)).trans ?_
    exact bind_of_error (h.run d)
  | .params hnot h => by
    intro n hn
    rw [List.length_cons] at hn
    refine (bind_of_ok (expect_mark ..)).trans ?_
    refine (bind_of_ok (expect_mark ..)).trans ?_
    refine bind_of_error ?_
    exact (bind_of_ok (accept_of_notNext hnot)).trans (h.run (by omega) d)
  | .arrow hp h => by
    intro n hn
    rw [List.length_cons] at hn
    refine (bind_of_ok (expect_mark ..)).trans ?_
    refine (bind_of_ok (expect_mark ..)).trans ?_
    refine (bind_of_ok (hp.run (by omega) d)).trans ?_
    exact bind_of_error (h.run d)
  | .body hp hnot h => by
    intro n hn
    have hlt := hp.length_lt
    rw [List.length_cons] at hn hlt
    refine (bind_of_ok (expect_mark ..)).trans ?_
    refine (bind_of_ok (expect_mark ..)).trans ?_
    refine (bind_of_ok (hp.run (by omega) d)).trans ?_
    refine (bind_of_ok (expect_mark ..)).trans ?_
    refine (bind_of_ok (ahead_of_notNext hnot)).trans ?_
    exact bind_of_error (h.run n n (by omega) (by omega))
  | .finish hp hb h => by
    intro n hn
    have hlt := hp.length_lt
    rw [List.length_cons] at hn hlt
    refine (bind_of_ok (expect_mark ..)).trans ?_
    refine (bind_of_ok (expect_mark ..)).trans ?_
    refine (bind_of_ok (hp.run (by omega) d)).trans ?_
    refine (bind_of_ok (expect_mark ..)).trans ?_
    refine (bind_of_ok (ahead_of_notNext (hb.opens.notNext (by decide) (by decide)))).trans ?_
    refine (bind_of_ok ((hb.run n n (by omega) (by omega)).1)).trans ?_
    exact bind_of_error (h.run d)

theorem Term.run {d : Nat} {ts pending rest : List Located} {e : SyntaxError} :
    Term b d ts e pending rest → ∀ n : Nat, ts.length ≤ n + 1 →
      term b (expressionWithin b n) n ⟨ts, d⟩ = .error e ⟨rest, d + pending.length⟩
  | .start h => fun n _ => h.run _ n d
  | .arguments hnot h => by
    intro n hn
    simp only [List.length_cons] at hn
    refine (Reading.term_name _).trans ((bind_of_ok (accept_mark ..)).trans ?_)
    refine bind_of_error ?_
    refine (bind_of_ok (accept_of_notNext hnot)).trans ?_
    exact h.run n n (by omega) (by omega)
  | .group h => by
    intro n hn
    rw [List.length_cons] at hn
    refine (bind_of_ok (show next _ = .ok (some _) _ from rfl)).trans ?_
    exact bind_of_error (h.run n (by omega))
  | .close hr h => by
    intro n hn
    rw [List.length_cons] at hn
    refine (bind_of_ok (hr.run n (by omega))).trans ?_
    exact bind_of_error (h.run d)

/-- The levels of the joints that have been folded are not closed by a failure. -/
theorem Chain.run {d m : Nat} {ts pending rest : List Located} {left : Expr Unit}
    {e : SyntaxError} : Chain b d m ts left e pending rest →
      ∀ n k opened : Nat, ts.length ≤ k → ts.length ≤ n →
        chain b (expressionWithin b n) m k opened left ⟨ts, d⟩ =
          .error e ⟨rest, d + pending.length⟩
  | .tooDeep hj hm hd => by
    intro n k opened hk hn
    rw [List.length_cons] at hk
    obtain ⟨k, rfl⟩ : ∃ k', k = k' + 1 := ⟨k - 1, by omega⟩
    refine (bind_of_ok (joint_token hj hm _)).trans ?_
    refine bind_of_error ?_
    rw [b.enter_levels, enter, if_pos hd]
    rfl
  | .operand hj hm hd h => by
    intro n k opened hk hn
    rw [List.length_cons] at hk hn
    obtain ⟨k, rfl⟩ : ∃ k', k = k' + 1 := ⟨k - 1, by omega⟩
    refine (chain_joint hj hm hd).trans ((bind_of_error (h.run n (by omega))).trans ?_)
    rw [List.length_cons, Nat.add_right_comm, Nat.add_assoc]
  | .target hj hm hd hr hcomb => by
    intro n k opened hk hn
    rw [List.length_cons] at hk hn
    obtain ⟨k, rfl⟩ : ∃ k', k = k' + 1 := ⟨k - 1, by omega⟩
    refine (chain_joint hj hm hd).trans ((bind_of_ok (hr.run n (by omega))).trans ?_)
    simp only [hcomb]
    rfl
  | .fold hj hm hd hr hcomb h => by
    intro n k opened hk hn
    rw [List.length_cons] at hk hn
    have hlt := hr.length_lt
    obtain ⟨k, rfl⟩ : ∃ k', k = k' + 1 := ⟨k - 1, by omega⟩
    refine (chain_joint hj hm hd).trans ((bind_of_ok (hr.run n (by omega))).trans ?_)
    simp only [hcomb, h.run n k (opened + 1) (by omega) (by omega)]
    rw [List.length_cons, Nat.add_right_comm, Nat.add_assoc]

theorem Expressions.run {d : Nat} {ts pending rest : List Located} {e : SyntaxError} :
    Expressions b d ts e pending rest → ∀ n k : Nat, ts.length ≤ k → ts.length ≤ n →
      list (expressionWithin b n 0) k ⟨ts, d⟩ = .error e ⟨rest, d + pending.length⟩
  | .here h => fun n _ _ hn => list_of_error (h.run n hn)
  | .more hr h => by
    intro n k hk hn
    have hlt := hr.length_lt
    rw [List.length_cons] at hlt
    obtain ⟨k, rfl⟩ : ∃ k', k = k' + 1 := ⟨k - 1, by omega⟩
    refine (bind_of_ok (hr.run n hn)).trans ?_
    refine (bind_of_ok (accept_mark ..)).trans ?_
    exact bind_of_error (h.run n k (by omega) (by omega))

theorem Arguments.run {d : Nat} {ts pending rest : List Located} {e : SyntaxError} :
    Arguments b d ts e pending rest → ∀ n k : Nat, ts.length ≤ k → ts.length ≤ n →
      listUpTo b .closeParen (expressionWithin b n 0) k ⟨ts, d⟩ =
        .error e ⟨rest, d + pending.length⟩
  | .here h => fun n _ _ hn => listUpTo_of_error (h.run n hn)
  | .separator hr h => by
    intro n k hk hn
    have hlt := hr.length_lt
    obtain ⟨k, rfl⟩ : ∃ k', k = k' + 1 := ⟨k - 1, by omega⟩
    exact h.run (hr.run n hn)
  | .more hr h => by
    intro n k hk hn
    have hlt := hr.length_lt
    rw [List.length_cons] at hlt
    obtain ⟨k, rfl⟩ : ∃ k', k = k' + 1 := ⟨k - 1, by omega⟩
    exact listUpTo_more_of_error (hr.run n hn) (h.run n k (by omega) (by omega))

end

theorem Statement.run {d n : Nat} {ts pending rest : List Located} {e : SyntaxError}
    (h : Statement b d ts e pending rest) (hn : ts.length ≤ n) :
    statementWithin b n ⟨ts, d⟩ = .error e ⟨rest, d + pending.length⟩ := by
  obtain ⟨line, hline⟩ : ∃ line, nextLine b ⟨ts, d⟩ = .ok line ⟨ts, d⟩ := by
    cases ts <;> exact ⟨_, rfl⟩
  refine (bind_of_ok hline).trans ?_
  cases h with
  | expressions h => exact bind_of_error (h.run n n hn hn)
  | dot hr h => exact (bind_of_ok (hr.run n n hn hn).1).trans (bind_of_error (h.run d))

theorem Program.run {d n : Nat} {ts pending rest : List Located} {e : SyntaxError}
    (h : Program b d ts e pending rest) (hn : ts.length ≤ n) :
    statementsWithin b n ⟨ts, d⟩ = .error e ⟨rest, d + pending.length⟩ := by
  induction h generalizing n with
  | here h => cases n <;> exact bind_of_error (h.run hn)
  | more hr _ ih =>
    have hlt := hr.length_lt
    obtain ⟨t, ts, rfl, -⟩ := hr.opens
    simp only [List.length_cons] at hlt hn ih
    obtain ⟨n, rfl⟩ : ∃ n', n = n' + 1 := ⟨n - 1, by omega⟩
    refine (bind_of_ok (hr.statement (by simpa using hn))).trans ?_
    refine (bind_of_ok (show peek _ = .ok (some _) _ from rfl)).trans ?_
    exact bind_of_error (ih (by omega))

end Failing

/-! ## From runs to failures -/

namespace Parser

variable {α : Type} {b : Bounds} {e : SyntaxError} {c c' : Cursor}

/-- A parser that reads its tokens or fails as `Fails` says has no errors but those. -/
theorem eq_error_iff_of_decides {p : Parser α}
    {Fails : SyntaxError → List Located → List Located → Prop}
    (hrun : ∀ e pending rest, Fails e pending rest →
      p c = .error e ⟨rest, c.depth + pending.length⟩)
    (hdecides : (∃ a c', p c = .ok a c') ∨ ∃ e pending rest, Fails e pending rest) :
    p c = .error e c' ↔
      ∃ pending, Fails e pending c'.rest ∧ c'.depth = c.depth + pending.length := by
  constructor
  · intro h
    rcases hdecides with ⟨a, c₁, hok⟩ | ⟨e₁, pending, rest, hf⟩
    · cases h.symm.trans hok
    · cases h.symm.trans (hrun e₁ pending rest hf)
      exact ⟨pending, hf, rfl⟩
  · rintro ⟨pending, hf, hd⟩
    rw [hrun e pending c'.rest hf, ← hd]

theorem expression_eq_error_iff {m : Nat} : expression b m c = .error e c' ↔
    ∃ pending, Failing.Expression b c.depth m c.rest e pending c'.rest ∧
      c'.depth = c.depth + pending.length := by
  refine eq_error_iff_of_decides (fun _ _ _ h => h.run _ (Nat.le_refl _)) ?_
  rcases Failing.decides_expression b _ c.depth m c.rest (Nat.le_refl _) with ⟨tree, rest, h⟩ | h
  · exact .inl ⟨tree, _, h.run _ (Nat.le_refl _)⟩
  · exact .inr h

theorem expressions_eq_error_iff : expressions b c = .error e c' ↔
    ∃ pending, Failing.Expressions b c.depth c.rest e pending c'.rest ∧
      c'.depth = c.depth + pending.length := by
  refine eq_error_iff_of_decides (fun _ _ _ h => h.run _ _ (Nat.le_refl _) (Nat.le_refl _)) ?_
  rcases Failing.decides_expressions b c.depth c.rest with ⟨es, rest, h⟩ | h
  · exact .inl ⟨es, _, (h.run _ _ (Nat.le_refl _) (Nat.le_refl _)).1⟩
  · exact .inr h

theorem statement_eq_error_iff : statement b c = .error e c' ↔
    ∃ pending, Failing.Statement b c.depth c.rest e pending c'.rest ∧
      c'.depth = c.depth + pending.length := by
  refine eq_error_iff_of_decides (fun _ _ _ h => h.run (Nat.le_refl _)) ?_
  rcases Failing.decides_statement b c.depth c.rest with ⟨es, l, rest, h⟩ | h
  · obtain ⟨ts, d⟩ := c
    obtain ⟨t, ts, rfl, -⟩ := h.opens
    exact .inl ⟨_, _, h.statement (Nat.le_refl _)⟩
  · exact .inr h

theorem statements_eq_error_iff : statements b c = .error e c' ↔
    ∃ pending, Failing.Program b c.depth c.rest e pending c'.rest ∧
      c'.depth = c.depth + pending.length := by
  refine eq_error_iff_of_decides (fun _ _ _ h => h.run (Nat.le_refl _)) ?_
  rcases Failing.decides_program b c.depth c.rest with ⟨program, h⟩ | h
  · exact .inl ⟨program, _, h.run (Nat.le_refl _)⟩
  · exact .inr h

end Parser

end Reckon
