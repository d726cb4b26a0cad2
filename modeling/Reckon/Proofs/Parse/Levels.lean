import Mathlib.Algebra.Group.Nat.Defs
import Reckon.Proofs.Parse.FailingRun

/-!
# The levels of the parser are accounted for

A parse that succeeds closes the levels that it has opened. A parse that fails closes those of its
expressions, and leaves open those of the operators whose chains have not ended (`levels_accounted`).

The parsers in `Parser.Counted` open and close their levels by a counter that reports a fault where it
is to be raised above its highest count, or lowered by more levels than are open (`Counter.levels`).
They end as the parsers without such a counter do, whatever the fault is: the levels never leave their
range, and those that are closed are there. This is proved by following the grammar over the one and
over the other side by side, with the number of open levels known at every step (`Steady`).
-/

set_option autoImplicit false

namespace Reckon

namespace Parser

/-! ## Parsers over a counter -/

/-- A counter of open levels: its highest count, and what it reports when it is to leave its range. -/
structure Counter where
  top : Nat
  fault : SyntaxError

def Counter.raise (k : Counter) : Parser Unit := fun c =>
  if c.depth < k.top then .ok () { c with depth := c.depth + 1 } else .error k.fault c

def Counter.lower (k : Counter) (levels : Nat) : Parser Unit := fun c =>
  if levels ≤ c.depth then .ok () { c with depth := c.depth - levels } else .error k.fault c

/-- Levels are opened up to the limit, by a counter that is checked whenever it changes. -/
def Counter.levels (k : Counter) (b : Bounds) : Levels :=
  { b with
    enter := fun line c =>
      if b.limit ≤ c.depth then .error (.nestingTooDeep b.limit line) c else k.raise c
    release := k.lower }

namespace Counted

variable (b : Bounds) (k : Counter)

def expression (minimum : Nat) : Parser (Expr Unit) :=
  fun c => expressionWithin (k.levels b) c.rest.length minimum c

def expressions : Parser (List (Expr Unit)) :=
  fun c => expressionsWithin (k.levels b) c.rest.length c

def statement : Parser (Statement Unit) :=
  fun c => statementWithin (k.levels b) c.rest.length c

def statements : Parser (List (Statement Unit)) :=
  fun c => statementsWithin (k.levels b) c.rest.length c

end Counted

/-! ## Two parsers side by side -/

/-- Where `d` levels are open, `q` does what `p` does. Then `after a` levels are open if they succeed,
and at least `low` if they fail. -/
structure Steady {α : Type} (low d : Nat) (after : α → Nat) (p q : Parser α) : Prop where
  eq : ∀ ts, q ⟨ts, d⟩ = p ⟨ts, d⟩
  depth_ok : ∀ {ts a c}, p ⟨ts, d⟩ = .ok a c → c.depth = after a
  le_depth_error : ∀ {ts e c}, p ⟨ts, d⟩ = .error e c → low ≤ c.depth

/-- The levels that are open before are open after, and no failure closes one of them. -/
abbrev Keeps {α : Type} (d : Nat) (p q : Parser α) : Prop := Steady d d (fun _ => d) p q

section
variable {α β : Type} {b : Bounds} {k : Counter} {low d : Nat}

theorem Steady.mono {low' : Nat} {after : α → Nat} {p q : Parser α} (h : Steady low' d after p q)
    (hlow : low ≤ low') : Steady low d after p q :=
  ⟨h.eq, h.depth_ok, fun he => Nat.le_trans hlow (h.le_depth_error he)⟩

theorem Steady.bind {after : α → Nat} {after' : β → Nat} {p q : Parser α} {f g : α → Parser β}
    (h : Steady low d after p q) (hf : ∀ a, Steady low (after a) after' (f a) (g a)) :
    Steady low d after' (p >>= f) (q >>= g) := by
  -- what is left when the first parser has succeeded
  have hmid : ∀ {ts a c}, p ⟨ts, d⟩ = .ok a c → c = ⟨c.rest, after a⟩ := fun hp => by
    rw [← h.depth_ok hp]
  refine ⟨fun ts => ?_, fun {ts b c} hb => ?_, fun {ts e c} he => ?_⟩
  · refine bind_eq_of (h.eq ts) fun a c hq => ?_
    rw [hmid ((h.eq ts).symm.trans hq)]
    exact (hf a).eq c.rest
  · obtain ⟨a, c₁, hp, hb⟩ := bind_eq_ok_iff.1 hb
    rw [hmid hp] at hb
    exact (hf a).depth_ok hb
  · cases hp : p ⟨ts, d⟩ with
    | ok a c₁ =>
      rw [bind_of_ok hp, hmid hp] at he
      exact (hf a).le_depth_error he
    | error e₁ c₁ =>
      rw [bind_of_error hp] at he
      cases he
      exact h.le_depth_error hp

theorem steady_pure {after : α → Nat} (a : α) (h : d = after a) :
    Steady low d after (pure a) (pure a) :=
  ⟨fun _ => rfl, fun hp => by cases hp; exact h, nofun⟩

theorem steady_throw {after : α → Nat} (e : SyntaxError) (h : low ≤ d) :
    Steady low d after (throw e) (throw e) :=
  ⟨fun _ => rfl, nofun, fun hp => by cases hp; exact h⟩

theorem keeps_pure (a : α) : Keeps d (pure a) (pure a) := steady_pure a rfl

theorem keeps_throw (e : SyntaxError) : Keeps d (throw e : Parser α) (throw e) :=
  steady_throw e (Nat.le_refl d)

/-! ## Single tokens -/

theorem keeps_peek : Keeps d peek peek :=
  ⟨fun _ => rfl, fun hp => by cases hp; rfl, nofun⟩

theorem keeps_next : Keeps d next next :=
  ⟨fun _ => rfl, fun hp => by cases hp; rfl, nofun⟩

theorem keeps_nextLine : Keeps d (nextLine b) (nextLine b) := by
  refine keeps_peek.bind fun t => ?_
  cases t with
  | some t => exact keeps_pure _
  | none => exact keeps_pure _

theorem keeps_ahead (m : Mark) : Keeps d (ahead m) (ahead m) := by
  refine keeps_peek.bind fun t => ?_
  cases t with
  | some t => exact keeps_pure _
  | none => exact keeps_pure _

theorem keeps_accept (m : Mark) : Keeps d (accept m) (accept m) := by
  refine (keeps_ahead m).bind fun a => ?_
  cases a with
  | true => exact keeps_next.bind fun _ => keeps_pure _
  | false => exact keeps_pure _

theorem keeps_expect (m : Mark) : Keeps d (expect b m) (expect b m) := by
  refine keeps_next.bind fun t => ?_
  cases t with
  | some t =>
    dsimp only
    split
    · exact keeps_pure _
    · exact keeps_throw _
  | none => exact keeps_throw _

theorem keeps_name : Keeps d (name b) (name b) := by
  refine keeps_next.bind fun t => ?_
  split
  · exact keeps_pure _
  · exact keeps_throw _
  · exact keeps_throw _

theorem keeps_joint (m : Nat) : Keeps d (joint m) (joint m) := by
  refine keeps_peek.bind fun t => ?_
  split
  · split
    · split
      · exact keeps_next.bind fun _ => keeps_pure _
      · exact keeps_pure _
    · exact keeps_pure _
  · exact keeps_pure _

/-! ## Levels -/

theorem steady_enter (hk : b.limit ≤ k.top) (hlow : low ≤ d) (line : Nat) :
    Steady low d (fun _ => d + 1) (enter b line) ((k.levels b).enter line) := by
  refine ⟨fun ts => ?_, fun h => ?_, fun h => ?_⟩
  · unfold Counter.levels enter
    dsimp only
    split
    · rfl
    · next hd => exact if_pos (show d < k.top by omega)
  · obtain ⟨-, rfl⟩ := enter_eq_ok h
    rfl
  · unfold enter at h
    split at h
    · cases h
      exact hlow
    · cases h

theorem steady_release (levels : Nat) :
    Steady low (d + levels) (fun _ => d) (release levels) (k.lower levels) := by
  refine ⟨fun ts => if_pos (Nat.le_add_left levels d), fun h => ?_, nofun⟩
  cases h
  exact Nat.add_sub_cancel d levels

/-- Whatever happens inside, the level that is closed is there. -/
theorem Keeps.nested {p q : Parser α} (h : Keeps (d + 1) p q) (hk : b.limit ≤ k.top) :
    Keeps d (nested b p) (nested (k.levels b) q) := by
  refine keeps_nextLine.bind fun line => (steady_enter hk (Nat.le_refl d) line).bind fun _ => ?_
  refine ⟨fun ts => ?_, fun {ts a c} ha => ?_, fun {ts e c} he => ?_⟩
  · simp only [h.eq ts]
    cases hp : p ⟨ts, d + 1⟩ with
    | ok a c =>
      have := h.depth_ok hp
      exact bind_eq_of (if_pos (by omega)) fun _ _ _ => rfl
    | error e c =>
      have := h.le_depth_error hp
      exact bind_eq_of (if_pos (by omega)) fun _ _ _ => rfl
  · cases hp : p ⟨ts, d + 1⟩ with
    | ok a₁ c₁ =>
      have := h.depth_ok hp
      simp only [hp] at ha
      cases ha
      show c₁.depth - 1 = d
      omega
    | error e₁ c₁ =>
      simp only [hp] at ha
      cases ha
  · cases hp : p ⟨ts, d + 1⟩ with
    | ok a₁ c₁ =>
      simp only [hp] at he
      cases he
    | error e₁ c₁ =>
      have := h.le_depth_error hp
      simp only [hp] at he
      cases he
      show d ≤ c₁.depth - 1
      omega

/-! ## Lists -/

theorem Keeps.list {p q : Parser α} (h : Keeps d p q) (n : Nat) :
    Keeps d (list p n) (list q n) := by
  induction n with
  | zero => exact h.bind fun _ => keeps_pure _
  | succ n ih =>
    refine h.bind fun first => (keeps_accept .comma).bind fun a => ?_
    cases a with
    | true => exact ih.bind fun _ => keeps_pure _
    | false => exact keeps_pure _

theorem Keeps.listUpTo {p q : Parser α} (h : Keeps d p q) (closing : Mark) (n : Nat) :
    Keeps d (listUpTo b closing p n) (listUpTo b closing q n) := by
  induction n with
  | zero => exact h.bind fun _ => keeps_pure _
  | succ n ih =>
    refine h.bind fun first => keeps_next.bind fun t => ?_
    cases t with
    | none => exact keeps_throw _
    | some t =>
      dsimp only
      split
      · exact ih.bind fun _ => keeps_pure _
      · split
        · exact keeps_pure _
        · exact keeps_throw _

theorem Keeps.enclosed {p q : Parser α} (h : Keeps d p q) (closing : Mark) (n : Nat) :
    Keeps d (enclosed b closing p n) (enclosed b closing q n) := by
  refine (keeps_accept closing).bind fun a => ?_
  cases a with
  | true => exact keeps_pure _
  | false => exact h.listUpTo closing n

end

/-! ## The grammar -/

section
variable {b : Bounds} {k : Counter} {expression other : Nat → Parser (Expr Unit)}
  (hex : ∀ d m, Keeps d (expression m) (other m))
include hex

theorem keeps_term (d n : Nat) : Keeps d (term b expression n) (term b other n) := by
  refine keeps_next.bind fun t => ?_
  split
  · exact keeps_pure _
  · refine (keeps_accept .openParen).bind fun a => ?_
    cases a with
    | true => exact ((hex d 0).enclosed .closeParen n).bind fun _ => keeps_pure _
    | false => exact keeps_pure _
  · exact (hex d 0).bind fun _ => (keeps_expect .closeParen).bind fun _ => keeps_pure _
  · exact keeps_throw _
  · exact keeps_throw _

/-- A chain that reports `opened` levels is that many levels deeper than where it has begun. -/
theorem steady_chain (hk : b.limit ≤ k.top) (d m n opened : Nat) (left : Expr Unit) :
    Steady d (d + opened) (fun r => d + r.2) (chain b expression m n opened left)
      (chain (k.levels b) other m n opened left) := by
  induction n generalizing opened left with
  | zero => exact steady_pure _ rfl
  | succ n ih =>
    have hlow : d ≤ d + opened := Nat.le_add_right d opened
    refine ((keeps_joint m).mono hlow).bind fun o => ?_
    split
    · next j line =>
      refine (steady_enter hk hlow line).bind fun _ => ?_
      refine ((hex _ j.precedence).mono (Nat.le_succ_of_le hlow)).bind fun right => ?_
      cases j.combine line left right with
      | ok joined => exact ih (opened + 1) joined
      | error e => exact steady_throw e (Nat.le_succ_of_le hlow)
    · exact steady_pure _ rfl

theorem keeps_operation (hk : b.limit ≤ k.top) (d m n : Nat) :
    Keeps d (operation b expression m n) (operation (k.levels b) other m n) := by
  refine (keeps_term hex d n).bind fun first => ?_
  refine (steady_chain hex hk d m n 0 first).bind fun r => ?_
  exact (steady_release r.2).bind fun _ => keeps_pure _

theorem keeps_functionLiteral (d n : Nat) :
    Keeps d (functionLiteral b expression n) (functionLiteral b other n) := by
  refine (keeps_expect .function).bind fun line => (keeps_expect .openParen).bind fun _ => ?_
  refine (keeps_name.enclosed .closeParen n).bind fun params => ?_
  refine (keeps_expect .arrow).bind fun _ => (keeps_ahead .finish).bind fun a => ?_
  cases a with
  | true =>
    exact (keeps_pure _).bind fun _ => (keeps_expect .finish).bind fun _ => keeps_pure _
  | false =>
    exact ((hex d 0).list n).bind fun _ => (keeps_expect .finish).bind fun _ => keeps_pure _

end

section
variable {b : Bounds} {k : Counter} (hk : b.limit ≤ k.top)
include hk

theorem keeps_expressionWithin (n d m : Nat) :
    Keeps d (expressionWithin b n m) (expressionWithin (k.levels b) n m) := by
  induction n generalizing d m with
  | zero => exact (keeps_throw _).nested hk
  | succ n ih =>
    refine Keeps.nested ((keeps_ahead .function).bind fun a => ?_) hk
    cases a with
    | true => exact keeps_functionLiteral ih (d + 1) n
    | false => exact keeps_operation ih hk (d + 1) m n

theorem keeps_statementWithin (n d : Nat) :
    Keeps d (statementWithin b n) (statementWithin (k.levels b) n) := by
  refine keeps_nextLine.bind fun line => ?_
  refine ((keeps_expressionWithin hk n d 0).list n).bind fun es => ?_
  exact (keeps_expect .dot).bind fun _ => keeps_pure _

theorem keeps_statementsWithin (n d : Nat) :
    Keeps d (statementsWithin b n) (statementsWithin (k.levels b) n) := by
  induction n with
  | zero => exact (keeps_statementWithin hk 0 d).bind fun _ => keeps_pure _
  | succ n ih =>
    refine (keeps_statementWithin hk (n + 1) d).bind fun first => keeps_peek.bind fun t => ?_
    cases t with
    | some t => exact ih.bind fun _ => keeps_pure _
    | none => exact keeps_pure _

end

/-! ## Accounts -/

section
variable {α : Type}

/-- The account of a parser `p` and the cursor `c`. Where `Fails e pending rest` says so, `p` fails with
the error `e`, in front of `rest`, and leaves the levels of the operators `pending` open; otherwise it
closes what it opens. Over a counter it is the parser `counted`, which ends in the same way. -/
structure Accounted (b : Bounds) (c : Cursor)
    (Fails : SyntaxError → List Located → List Located → Prop) (p counted : Parser α) : Prop where
  ok : ∀ a c', p c = .ok a c' →
    c'.rest <:+ c.rest ∧ c'.rest.length < c.rest.length ∧ c'.depth = c.depth
  error : ∀ e c', p c = .error e c' ↔
    ∃ pending, Fails e pending c'.rest ∧ c'.depth = c.depth + pending.length
  pending : ∀ e pending rest, Fails e pending rest →
    ∃ read, c.rest = read ++ rest ∧ pending.Sublist read ∧
      ∀ t ∈ pending, (Joint.ofToken? t.token).isSome
  range : ∀ e c', p c = .error e c' →
    c'.rest <:+ c.rest ∧ c.depth ≤ c'.depth ∧ c'.depth ≤ max c.depth b.limit
  counted : counted c = p c

theorem accounted_of_pends {b : Bounds} {c : Cursor}
    {Fails : SyntaxError → List Located → List Located → Prop} {p counted : Parser α}
    (hok : ∀ a c', p c = .ok a c' →
      c'.rest <:+ c.rest ∧ c'.rest.length < c.rest.length ∧ c'.depth = c.depth)
    (herror : ∀ e c', p c = .error e c' ↔
      ∃ pending, Fails e pending c'.rest ∧ c'.depth = c.depth + pending.length)
    (hpends : ∀ e pending rest, Fails e pending rest →
      Failing.Pends b c.depth c.rest pending rest)
    (hcounted : counted c = p c) : Accounted b c Fails p counted := by
  refine ⟨hok, herror, fun e pending rest h => ?_, fun e c' he => ?_, hcounted⟩
  · obtain ⟨⟨read, hread, hsub⟩, hjoint, -⟩ := hpends e pending rest h
    exact ⟨read, hread, hsub, hjoint⟩
  · obtain ⟨pending, h, hd⟩ := (herror e c').1 he
    obtain ⟨⟨read, hread, -⟩, -, hle⟩ := hpends e pending c'.rest h
    exact ⟨⟨read, hread.symm⟩, by omega, by omega⟩

end

variable {b : Bounds} {c : Cursor} {k : Counter}

theorem accounted_expression (hk : b.limit ≤ k.top) (m : Nat) :
    Accounted b c (Failing.Expression b c.depth m c.rest) (expression b m)
      (Counted.expression b k m) := by
  refine accounted_of_pends (fun e c' h => ?_) (fun _ _ => expression_eq_error_iff)
    (fun _ _ _ h => h.pends) ((keeps_expressionWithin hk _ c.depth m).eq c.rest)
  obtain ⟨hr, hd⟩ := expression_eq_ok_iff.1 h
  obtain ⟨read, hread⟩ := hr.exists_append
  exact ⟨⟨read, hread.symm⟩, hr.length_lt, hd⟩

theorem accounted_expressions (hk : b.limit ≤ k.top) :
    Accounted b c (Failing.Expressions b c.depth c.rest) (expressions b)
      (Counted.expressions b k) := by
  refine accounted_of_pends (fun es c' h => ?_) (fun _ _ => expressions_eq_error_iff)
    (fun _ _ _ h => h.pends) (((keeps_expressionWithin hk _ c.depth 0).list _).eq c.rest)
  obtain ⟨hr, hd⟩ := (reads_expressionWithin b _).list (Nat.le_refl _) (Nat.le_refl _) h
  obtain ⟨read, hread⟩ := hr.exists_append
  exact ⟨⟨read, hread.symm⟩, hr.length_lt, hd⟩

theorem accounted_statement (hk : b.limit ≤ k.top) :
    Accounted b c (Failing.Statement b c.depth c.rest) (statement b) (Counted.statement b k) := by
  refine accounted_of_pends (fun s c' h => ?_) (fun _ _ => statement_eq_error_iff)
    (fun _ _ _ h => h.pends) ((keeps_statementWithin hk _ c.depth).eq c.rest)
  obtain ⟨t, ts, l, hc, -, hr, hd⟩ := statementWithin_eq_ok (Nat.le_refl _) h
  have hlt := hr.length_lt
  obtain ⟨read, hread⟩ := hr.exists_append
  rw [hc]
  refine ⟨⟨read ++ [⟨.mark .dot, l⟩], by simp [hread]⟩, ?_, hd⟩
  rw [List.length_cons] at hlt
  omega

theorem accounted_statements (hk : b.limit ≤ k.top) :
    Accounted b c (Failing.Program b c.depth c.rest) (statements b) (Counted.statements b k) := by
  refine accounted_of_pends (fun program c' h => ?_) (fun _ _ => statements_eq_error_iff)
    (fun _ _ _ h => h.pends) ((keeps_statementsWithin hk _ c.depth).eq c.rest)
  obtain ⟨hr, rfl⟩ := statements_eq_ok_iff.1 h
  refine ⟨List.nil_suffix, ?_, rfl⟩
  obtain ⟨ts, d⟩ := c
  change Reading.Program b.limit d ts program at hr
  cases hr <;> simp

/-- From any cursor, whatever the precedence, the limit and the levels that are open: a parse leaves
tokens from the end of those it has been given, and fewer of them if it succeeds. A success closes
what it has opened. A failure leaves the levels of the operators open that have got one in a chain
which has not ended, so that there are no fewer levels than before, and no more than the limit or
than before. Where the counter can hold the limit, it is never raised beyond what it can hold, and
never lowered by more than it holds. -/
theorem levels_accounted (b : Bounds) (c : Cursor) (k : Counter) (hk : b.limit ≤ k.top) :
    (∀ m, Accounted b c (Failing.Expression b c.depth m c.rest) (expression b m)
      (Counted.expression b k m)) ∧
    Accounted b c (Failing.Expressions b c.depth c.rest) (expressions b)
      (Counted.expressions b k) ∧
    Accounted b c (Failing.Statement b c.depth c.rest) (statement b) (Counted.statement b k) ∧
    Accounted b c (Failing.Program b c.depth c.rest) (statements b) (Counted.statements b k) :=
  ⟨accounted_expression hk, accounted_expressions hk, accounted_statement hk,
    accounted_statements hk⟩

/-- In `x = f(y + z, w *)` the right operand of the last operator is missing. The chain of the sum has
ended, and the two operators that are left pending keep their levels. -/
theorem levels_accounted_pending :
    let tokens : List Located := [⟨.name "x", 1⟩, ⟨.mark .equals, 1⟩, ⟨.name "f", 1⟩,
      ⟨.mark .openParen, 1⟩, ⟨.name "y", 1⟩, ⟨.mark .plus, 1⟩, ⟨.name "z", 1⟩, ⟨.mark .comma, 1⟩,
      ⟨.name "w", 1⟩, ⟨.mark .star, 1⟩, ⟨.mark .closeParen, 1⟩, ⟨.mark .dot, 1⟩]
    let b : Bounds := ⟨256, 1⟩
    let k : Counter := ⟨2 ^ 64 - 1, .unexpectedEnd 0⟩
    b.limit ≤ k.top ∧
    Failing.Program b 3 tokens (.unexpectedToken "')'" 1)
      [⟨.mark .equals, 1⟩, ⟨.mark .star, 1⟩] [⟨.mark .dot, 1⟩] ∧
    Counted.statements b k ⟨tokens, 3⟩ =
      .error (.unexpectedToken "')'" 1) ⟨[⟨.mark .dot, 1⟩], 5⟩ := by
  intro tokens b k
  have hlimit : b.limit ≤ k.top := by decide
  have hcomma : Reading.Ends (tokens.drop 7) := Reading.ends_mark rfl (by decide) _ _
  have hsum : Reading.Expression b.limit 6 0 (tokens.drop 4)
      (.arithmetic .add (.var "y" 1) (.var "z" 1) 1) (tokens.drop 7) := by
    refine .operation (by decide) (.var nofun) ?_
    refine .fold rfl rfl (by decide) ?_ rfl (.stop (hcomma.stops _))
    exact .operation (by decide) (.var hcomma.notNext) (.stop (hcomma.stops _))
  have hproduct : Failing.Expression b 6 0 (tokens.drop 8) (.unexpectedToken "')'" 1)
      [⟨.mark .star, 1⟩] [⟨.mark .dot, 1⟩] := by
    refine .chain (by decide) (.var nofun) (.operand rfl rfl (by decide) ?_)
    exact .term (by decide) nofun (.start (.token (by simp)))
  have hcall : Failing.Expression b 5 1 (tokens.drop 2) (.unexpectedToken "')'" 1)
      [⟨.mark .star, 1⟩] [⟨.mark .dot, 1⟩] := by
    refine .term (by decide) nofun (.arguments nofun ?_)
    exact .more hsum (.here hproduct)
  have hfails : Failing.Program b 3 tokens (.unexpectedToken "')'" 1)
      [⟨.mark .equals, 1⟩, ⟨.mark .star, 1⟩] [⟨.mark .dot, 1⟩] := by
    refine .here (.expressions (.here (.chain (by decide) (.var nofun) ?_)))
    exact .operand rfl rfl (by decide) hcall
  have haccounted := (levels_accounted b ⟨tokens, 3⟩ k hlimit).2.2.2
  refine ⟨hlimit, hfails, ?_⟩
  rw [haccounted.counted]
  exact (haccounted.error _ ⟨[⟨.mark .dot, 1⟩], 5⟩).2 ⟨_, hfails, rfl⟩

end Parser

end Reckon
