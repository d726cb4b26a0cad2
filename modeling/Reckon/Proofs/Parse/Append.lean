import Reckon.Proofs.Parse.Bound
import Reckon.Proofs.Parse.Lines
import Reckon.Proofs.Token.Split

/-!
# Programs one after the other

A program in front of further tokens is read as if it stood alone, and the further tokens after it
as if they did: the levels are closed again, and where the tokens end matters to the last statement
only (`parseTokens_append`). With what scanning does at a separator, the same holds of source texts
(`parse_join`). -/

set_option autoImplicit false

namespace Reckon

/-! ## Readings in front of further tokens -/

namespace Reading

theorem NotNext.append_more {m : Mark} {ts : List Located} (h : NotNext m ts) (hne : ts ≠ [])
    (more : List Located) : NotNext m (ts ++ more) := by
  cases ts with
  | nil => exact absurd rfl hne
  | cons t ts => exact h

theorem Stops.append_more {m : Nat} {ts : List Located} (h : Stops m ts) (hne : ts ≠ [])
    (more : List Located) : Stops m (ts ++ more) := by
  cases ts with
  | nil => exact absurd rfl hne
  | cons t ts => exact h

theorem Names.append_more {ts rest : List Located} {xs : List String} (h : Names ts xs rest)
    (more : List Located) : Names (ts ++ more) xs (rest ++ more) := by
  induction h with
  | last => exact .last
  | more _ ih => exact .more ih

theorem Params.append_more {ts rest : List Located} {xs : List String} (h : Params ts xs rest)
    (more : List Located) : Params (ts ++ more) xs (rest ++ more) := by
  cases h with
  | none => exact .none
  | some h => exact .some (h.append_more more)

theorem Chain.ne_nil {limit d m : Nat} {ts rest : List Located} {left e : Expr Unit}
    (h : Chain limit d m ts left e rest) (hne : rest ≠ []) : ts ≠ [] := by
  have hlen := h.length_le
  have hpos := List.length_pos_iff.2 hne
  exact List.length_pos_iff.1 (by omega)

section
variable {limit : Nat} (more : List Located)

mutual

theorem Expression.append_more {d m : Nat} {ts rest : List Located} {e : Expr Unit} :
    Expression limit d m ts e rest → rest ≠ [] → Expression limit d m (ts ++ more) e (rest ++ more)
  | .emptyFunction hd hp => fun _ => .emptyFunction hd (hp.append_more more)
  | .function hd hp hb => fun _ =>
    .function hd (hp.append_more more) (hb.append_more (List.cons_ne_nil _ _))
  | .operation hd ht hc => by
    intro hne
    exact .operation hd (ht.append_more (hc.ne_nil hne)) (hc.append_more hne)

theorem Term.append_more {d : Nat} {ts rest : List Located} {e : Expr Unit} :
    Term limit d ts e rest → rest ≠ [] → Term limit d (ts ++ more) e (rest ++ more)
  | .number => fun _ => .number
  | .var h => fun hne => .var (h.append_more hne more)
  | .emptyCall => fun _ => .emptyCall
  | .call hs => fun _ => .call (hs.append_more (List.cons_ne_nil _ _))
  | .group h => fun _ => .group (h.append_more (List.cons_ne_nil _ _))

theorem Chain.append_more {d m : Nat} {ts rest : List Located} {left e : Expr Unit} :
    Chain limit d m ts left e rest → rest ≠ [] →
      Chain limit d m (ts ++ more) left e (rest ++ more)
  | .stop hs => fun hne => .stop (hs.append_more hne more)
  | .fold hj hm hd h hcomb hc => by
    intro hne
    exact .fold hj hm hd (h.append_more (hc.ne_nil hne)) hcomb (hc.append_more hne)

theorem Expressions.append_more {d : Nat} {ts rest : List Located} {es : List (Expr Unit)} :
    Expressions limit d ts es rest → rest ≠ [] →
      Expressions limit d (ts ++ more) es (rest ++ more)
  | .last h hnot => fun hne => .last (h.append_more hne) (hnot.append_more hne more)
  | .more h hs => fun hne => .more (h.append_more (List.cons_ne_nil _ _)) (hs.append_more hne)

end

end

/-- The first statement of several. -/
theorem Expressions.statements {b : Bounds} {d l : Nat} {t u : Located} {ts rest : List Located}
    {es : List (Expr Unit)}
    (h : Expressions b.limit d (t :: ts) es (⟨.mark .dot, l⟩ :: u :: rest)) :
    Parser.statements b ⟨t :: ts, d⟩ =
      (Parser.statements b >>= fun others => pure (⟨es, t.line⟩ :: others)) ⟨u :: rest, d⟩ := by
  have hlt := h.length_lt
  simp only [List.length_cons] at hlt
  refine (bind_of_ok (h.statement (Nat.le_refl _))).trans ?_
  refine (bind_of_ok (show Parser.peek _ = .ok (some u) _ from rfl)).trans ?_
  refine bind_eq_of (Eq.symm ?_) (fun _ _ _ => rfl)
  exact Parser.statementsWithin_eq (Nat.le_refl _) (by simp only [List.length_cons]; omega)

/-- After a program, the parser goes on with the further tokens as with a program of their own. -/
theorem Program.statements_append {b : Bounds} {d : Nat} {ts more : List Located}
    {program : List (Statement Unit)} (h : Program b.limit d ts program) (hmore : more ≠ []) :
    Parser.statements b ⟨ts ++ more, d⟩ =
      (Parser.statements b >>= fun others => pure (program ++ others)) ⟨more, d⟩ := by
  obtain ⟨u, more, rfl⟩ := List.exists_cons_of_ne_nil hmore
  induction h with
  | last h => exact (h.append_more (u :: more) (List.cons_ne_nil _ _)).statements
  | more h _ ih =>
    refine (h.append_more (u :: more) (List.cons_ne_nil _ _)).statements.trans ?_
    cases hrest : Parser.statements b ⟨u :: more, d⟩ with
    | ok others c =>
      rw [bind_of_ok hrest] at ih ⊢
      exact (bind_of_ok ih).trans rfl
    | error e c =>
      rw [bind_of_error hrest] at ih ⊢
      exact bind_of_error ih

end Reading

/-! ## Tokens -/

/-- The line that stands for the end of the tokens. -/
def endLine (tokens : List Located) : Nat := (tokens.getLast?.map Located.line).getD 1

theorem parseTokens_of_ok {limit : Nat} {tokens : List Located} {program : List (Statement Unit)}
    {c : Cursor} (h : Parser.statements ⟨limit, endLine tokens⟩ ⟨tokens, 0⟩ = .ok program c) :
    parseTokens limit tokens = .ok program := by
  rw [endLine] at h
  simp only [parseTokens, h]

theorem parseTokens_of_error {limit : Nat} {tokens : List Located} {e : SyntaxError} {c : Cursor}
    (h : Parser.statements ⟨limit, endLine tokens⟩ ⟨tokens, 0⟩ = .error e c) :
    parseTokens limit tokens = .error e := by
  rw [endLine] at h
  simp only [parseTokens, h]

theorem parseTokens_eq_ok_iff {limit : Nat} {tokens : List Located}
    {program : List (Statement Unit)} :
    parseTokens limit tokens = .ok program ↔ Reading.Program limit 0 tokens program := by
  constructor
  · intro h
    cases hr : Parser.statements ⟨limit, endLine tokens⟩ ⟨tokens, 0⟩ with
    | ok program' c =>
      rw [parseTokens_of_ok hr] at h
      cases h
      exact (Parser.statements_eq_ok_iff.1 hr).1
    | error e c =>
      rw [parseTokens_of_error hr] at h
      cases h
  · intro h
    exact parseTokens_of_ok (Parser.statements_eq_ok_iff.2 ⟨h, rfl⟩)

theorem endLine_append_map (ts : List Located) {more : List Located} (hmore : more ≠ [])
    (f : Nat → Nat) : endLine (ts ++ more.map (Located.mapLines f)) = f (endLine more) := by
  obtain ⟨init, t, rfl⟩ := List.eq_nil_or_concat more |>.resolve_left hmore
  simp [endLine, Located.mapLines]

theorem parseTokens_append {limit : Nat} {ts more : List Located} {program : List (Statement Unit)}
    (h : parseTokens limit ts = .ok program) (hmore : more ≠ []) (f : Nat → Nat) :
    parseTokens limit (ts ++ more.map (Located.mapLines f)) =
      moved f (fun others => program ++ others.map (Statement.mapLines f))
        (parseTokens limit more) := by
  have hprogram := parseTokens_eq_ok_iff.1 h
  -- the end of all tokens is the moved end of the further ones
  have hb : (⟨limit, endLine (ts ++ more.map (Located.mapLines f))⟩ : Bounds) =
      Bounds.mapLines f ⟨limit, endLine more⟩ := by
    rw [endLine_append_map ts hmore]
    rfl
  have happend := hprogram.statements_append (b := Bounds.mapLines f ⟨limit, endLine more⟩)
    (show more.map (Located.mapLines f) ≠ [] by simpa using hmore)
  have hmoved := Parser.statements_mapLines (f := f) ⟨limit, endLine more⟩ ⟨more, 0⟩
  cases hr : Parser.statements ⟨limit, endLine more⟩ ⟨more, 0⟩ with
  | ok others c =>
    rw [hr] at hmoved
    have hjoined := happend.trans (bind_of_ok hmoved)
    rw [← hb] at hjoined
    rw [parseTokens_of_ok hr, parseTokens_of_ok hjoined]
    rfl
  | error e c =>
    rw [hr] at hmoved
    have hjoined := happend.trans (bind_of_error hmoved)
    rw [← hb] at hjoined
    rw [parseTokens_of_error hr, parseTokens_of_error hjoined]
    rfl

theorem parseTokens_mapLines {limit : Nat} {ts : List Located} (hts : ts ≠ []) (f : Nat → Nat) :
    parseTokens limit (ts.map (Located.mapLines f)) =
      moved f (List.map (Statement.mapLines f)) (parseTokens limit ts) := by
  have hb : (⟨limit, endLine (ts.map (Located.mapLines f))⟩ : Bounds) =
      Bounds.mapLines f ⟨limit, endLine ts⟩ := by
    have hend := endLine_append_map [] hts f
    rw [List.nil_append] at hend
    rw [hend]
    rfl
  have hmoved := Parser.statements_mapLines (f := f) ⟨limit, endLine ts⟩ ⟨ts, 0⟩
  rw [← hb] at hmoved
  cases hr : Parser.statements ⟨limit, endLine ts⟩ ⟨ts, 0⟩ with
  | ok program c =>
    rw [hr] at hmoved
    rw [parseTokens_of_ok hr, parseTokens_of_ok hmoved]
    rfl
  | error e c =>
    rw [hr] at hmoved
    rw [parseTokens_of_error hr, parseTokens_of_error hmoved]
    rfl

/-! ## Source texts -/

theorem parse_eq_ok {limit : Nat} {source : String} {program : List (Statement Unit)}
    (h : parse limit source = .ok program) :
    ∃ ts, tokenize source = .ok ts ∧ parseTokens limit ts = .ok program := by
  unfold parse at h
  cases ht : tokenize source with
  | error e => rw [ht] at h; cases h
  | ok ts =>
    rw [ht] at h
    exact ⟨ts, rfl, h⟩

/-- A text that is a program, a gap and any text that is not empty parse as the two texts do, with
the second one that many lines further down. -/
theorem parse_join {limit : Nat} {a b text : String} {w : Char} (hw : IsGap w)
    (ht : text.toList = a.toList ++ w :: b.toList) {program : List (Statement Unit)}
    (ha : parse limit a = .ok program) (hb : scan b ≠ []) :
    parse limit text = moved (· + (a.toList ++ [w]).count '\n')
      (fun others =>
        program ++ others.map (Statement.mapLines (· + (a.toList ++ [w]).count '\n')))
      (parse limit b) := by
  obtain ⟨ts, hts, hprogram⟩ := parse_eq_ok ha
  have htext := tokenize_join hw ht hts
  unfold parse
  rw [htext]
  cases hmore : tokenize b with
  | error e => rfl
  | ok more => exact parseTokens_append hprogram (tokenize_ne_nil hb hmore) _

/-- A text without tokens and a gap in front of a text only move it down. -/
theorem parse_after_gap {limit : Nat} {a b text : String} {w : Char} (hw : IsGap w)
    (ht : text.toList = a.toList ++ w :: b.toList) (ha : scan a = []) (hb : scan b ≠ []) :
    parse limit text = moved (· + (a.toList ++ [w]).count '\n')
      (List.map (Statement.mapLines (· + (a.toList ++ [w]).count '\n'))) (parse limit b) := by
  have hts : tokenize a = .ok [] := tokenize_of_scan ha
  have htext := tokenize_join hw ht hts
  unfold parse
  rw [htext]
  cases hmore : tokenize b with
  | error e => rfl
  | ok more => exact parseTokens_mapLines (tokenize_ne_nil hb hmore) _

end Reckon
