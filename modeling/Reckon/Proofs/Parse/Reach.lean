import Reckon.Proofs.Parse.Height

/-!
# The reach of the nesting limit

How high the trees of accepted programs are: never higher than `1 + limit * (limit - 1) / 2`, and
for every limit there is a source text that gets there (`parse_reaches`). The text is a tower of
calls: the argument of each call uses all levels but one, and once they are closed again, as many
operators follow the call as there are levels to open.
-/

set_option autoImplicit false

namespace Reckon

theorem lt_tallest {h : Nat} (h3 : 3 ≤ h) : h < tallest h := by
  induction h, h3 using Nat.le_induction with
  | base => decide
  | succ h h3 ih =>
    rw [tallest]
    omega

theorem Expr.height_le_heightAll {τ : Type} {e : Expr τ} {es : List (Expr τ)} (h : e ∈ es) :
    e.height ≤ heightAll es := by
  induction es with
  | nil => cases h
  | cons e' es ih =>
    rw [heightAll]
    rcases List.mem_cons.1 h with rfl | h
    · exact Nat.le_max_left ..
    · exact Nat.le_trans (ih h) (Nat.le_max_right ..)

/-! ## Towers -/

namespace Tower

/-- The variable `x` added that many times. -/
def sumText : Nat → List Char
  | 0 => []
  | n + 1 => '+' :: 'x' :: sumText n

/-- The tower for `h + 1` levels. -/
def text : Nat → List Char
  | 0 => ['x']
  | h + 1 => 'f' :: '(' :: (text h ++ ')' :: sumText h)

def sumTokens : Nat → List Located
  | 0 => []
  | n + 1 => ⟨.mark .plus, 1⟩ :: ⟨.name "x", 1⟩ :: sumTokens n

def tokens : Nat → List Located
  | 0 => [⟨.name "x", 1⟩]
  | h + 1 => ⟨.name "f", 1⟩ :: ⟨.mark .openParen, 1⟩ ::
      (tokens h ++ ⟨.mark .closeParen, 1⟩ :: sumTokens h)

def sumTree (left : Expr Unit) : Nat → Expr Unit
  | 0 => left
  | n + 1 => sumTree (.arithmetic .add left (.var "x" 1) 1) n

def tree : Nat → Expr Unit
  | 0 => .var "x" 1
  | h + 1 => sumTree (.call "f" [tree h] 1) h

/-! ### Their height -/

theorem height_sumTree (left : Expr Unit) (n : Nat) :
    (sumTree left n).height = left.height + n := by
  induction n generalizing left with
  | zero => rfl
  | succ n ih =>
    have := left.height_pos
    rw [sumTree, ih, Expr.height, Expr.height]
    omega

theorem height_tree (h : Nat) : (tree h).height = tallest (h + 1) := by
  induction h with
  | zero => rfl
  | succ h ih =>
    show _ = tallest (h + 1) + 1 + (h + 1 - 1)
    rw [tree, height_sumTree, Expr.height, heightAll, heightAll, ih]
    omega

/-! ### How they are scanned -/

/-- The text is empty or goes on with a character that no word has. -/
def EndsWord (rest : List Char) : Prop := ∀ c ∈ rest.head?, Lexeme.isWordPart c = false

theorem endsWord_sumText {rest : List Char} (hrest : EndsWord rest) (n : Nat) :
    EndsWord (sumText n ++ rest) := by
  cases n with
  | zero => exact hrest
  | succ n =>
    intro c hc
    cases hc
    rfl

theorem takeWhile_endsWord {rest : List Char} (hrest : EndsWord rest) :
    rest.takeWhile Lexeme.isWordPart = [] := by
  cases rest with
  | nil => rfl
  | cons c rest => exact List.takeWhile_cons_of_neg (by simp [hrest c rfl])

/-- A token of one character. -/
theorem scanFrom_single {c : Char} {rest : List Char} {t : Token} (hn : c ≠ '\n')
    (hb : ¬(c = ' ' ∨ c = '\t')) (ht : Lexeme.read? (c :: rest) = some ⟨t, 1⟩) :
    scanFrom 1 0 (c :: rest) = .ok ⟨t, 1⟩ :: scanFrom 1 0 rest :=
  scanFrom_token hn hb ht

theorem scanFrom_x {rest : List Char} (hrest : EndsWord rest) :
    scanFrom 1 0 ('x' :: rest) = .ok ⟨.name "x", 1⟩ :: scanFrom 1 0 rest := by
  refine scanFrom_single (by decide) (by decide) ?_
  show some (Lexeme.word ('x' :: rest)) = _
  rw [Lexeme.word, List.takeWhile_cons_of_pos rfl, takeWhile_endsWord hrest]
  rfl

theorem scanFrom_sumText {rest : List Char} (hrest : EndsWord rest) (n : Nat) :
    scanFrom 1 0 (sumText n ++ rest) = (sumTokens n).map .ok ++ scanFrom 1 0 rest := by
  induction n with
  | zero => rfl
  | succ n ih =>
    rw [sumText, List.cons_append, List.cons_append,
      scanFrom_single (t := .mark .plus) (by decide) (by decide) rfl,
      scanFrom_x (endsWord_sumText hrest n), ih]
    rfl

theorem scanFrom_text {rest : List Char} (hrest : EndsWord rest) (h : Nat) :
    scanFrom 1 0 (text h ++ rest) = (tokens h).map .ok ++ scanFrom 1 0 rest := by
  induction h generalizing rest with
  | zero => exact scanFrom_x hrest
  | succ h ih =>
    have hclose : EndsWord (')' :: (sumText h ++ rest)) := by
      intro c hc
      cases hc
      rfl
    simp only [text, tokens, List.cons_append, List.append_assoc, List.map_cons, List.map_append]
    rw [scanFrom_single (t := .name "f") (by decide) (by decide) rfl,
      scanFrom_single (t := .mark .openParen) (by decide) (by decide) rfl, ih hclose,
      scanFrom_single (t := .mark .closeParen) (by decide) (by decide) rfl,
      scanFrom_sumText hrest h]

/-- The tower as a program. -/
def source (h : Nat) : String := String.ofList (text h ++ ['.'])

theorem tokenize_source (h : Nat) :
    tokenize (source h) = .ok (tokens h ++ [⟨.mark .dot, 1⟩]) := by
  have hdot : EndsWord ['.'] := by
    intro c hc
    cases hc
    rfl
  refine tokenize_of_scan ?_
  rw [scan, source, String.toList_ofList, scanFrom_text hdot, List.map_append]
  rfl

/-! ### How they are read -/

open Reading

variable {limit : Nat}

theorem stops_sumTokens {rest : List Located} (hrest : Ends rest) (n : Nat) :
    Stops Operator.add.precedence (sumTokens n ++ rest) := by
  cases n with
  | zero => exact hrest.stops _
  | succ n =>
    intro j hj
    cases hj
    rfl

theorem notNext_sumTokens {rest : List Located} (hrest : Ends rest) (n : Nat) :
    NotNext .openParen (sumTokens n ++ rest) := by
  cases n with
  | zero => exact hrest.notNext
  | succ n =>
    intro h
    cases h

/-- Each operator opens a level, and its right operand needs one more. -/
theorem chain_sumTokens {rest : List Located} (hrest : Ends rest) {d n : Nat} (hd : d + n < limit)
    (left : Expr Unit) : Chain limit d 0 (sumTokens n ++ rest) left (sumTree left n) rest := by
  induction n generalizing d left with
  | zero => exact .stop (hrest.stops 0)
  | succ n ih =>
    have hx : Expression limit (d + 1) Operator.add.precedence
        (⟨.name "x", 1⟩ :: (sumTokens n ++ rest)) (.var "x" 1) (sumTokens n ++ rest) :=
      .operation (by omega) (.var (notNext_sumTokens hrest n)) (.stop (stops_sumTokens hrest n))
    exact .fold rfl rfl (by omega) hx rfl (ih (by omega) _)

theorem expression_tokens {rest : List Located} (hrest : Ends rest) {d h : Nat}
    (hd : d + h < limit) : Expression limit d 0 (tokens h ++ rest) (tree h) rest := by
  induction h generalizing d rest with
  | zero => exact .operation (by omega) (.var hrest.notNext) (.stop (hrest.stops 0))
  | succ h ih =>
    have hclose : Ends (⟨.mark .closeParen, 1⟩ :: (sumTokens h ++ rest)) :=
      ends_mark rfl (by decide) _ _
    have harguments := Expressions.last (ih hclose (d := d + 1) (by omega)) (by simp [NotNext])
    simp only [tokens, List.cons_append, List.append_assoc]
    exact .operation (by omega) (.call harguments) (chain_sumTokens hrest (by omega) _)

theorem parse_source {h : Nat} (hlimit : h < limit) :
    parse limit (source h) = .ok [⟨[tree h], 1⟩] := by
  have hexpressions : Expressions limit 0 (tokens h ++ [⟨.mark .dot, 1⟩]) [tree h]
      [⟨.mark .dot, 1⟩] :=
    .last (expression_tokens (ends_mark rfl (by decide) _ _) (by omega)) (by simp [NotNext])
  have hprogram : Program limit 0 (tokens h ++ [⟨.mark .dot, 1⟩]) [⟨[tree h], 1⟩] := by
    cases h with
    | zero => exact .last hexpressions
    | succ h => exact .last hexpressions
  unfold parse
  rw [tokenize_source]
  exact parseTokens_eq_ok_iff.2 hprogram

end Tower

/-- No tree of an accepted program is higher than the levels that the limit allows can make it, and
for every limit some tree is that high. With three levels or more, that is higher than the limit. -/
theorem parse_reaches {limit : Nat} (hlimit : 1 ≤ limit) :
    (∀ source program, parse limit source = .ok program →
      ∀ s ∈ program, ∀ e ∈ s.expressions, e.height ≤ 1 + limit * (limit - 1) / 2) ∧
    ∃ source program, parse limit source = .ok program ∧
      ∃ s ∈ program, ∃ e ∈ s.expressions, e.height = 1 + limit * (limit - 1) / 2 ∧
        (3 ≤ limit → limit < e.height) := by
  refine ⟨fun source program hparse s hs e he => ?_, ?_⟩
  · have hmem : e ∈ program.flatMap Statement.expressions := List.mem_flatMap.2 ⟨s, hs, he⟩
    calc e.height ≤ heightAll (program.flatMap Statement.expressions) :=
          Expr.height_le_heightAll hmem
      _ ≤ tallest limit := height_le_of_parse hparse
      _ ≤ 1 + limit * (limit - 1) / 2 := tallest_le limit
  · obtain ⟨h, rfl⟩ : ∃ h, limit = h + 1 := ⟨limit - 1, by omega⟩
    refine ⟨Tower.source h, _, Tower.parse_source (Nat.lt_succ_self h), _,
      List.mem_singleton_self _, _, List.mem_singleton_self _,
      (Tower.height_tree h).trans (tallest_succ_eq h), fun h3 => ?_⟩
    rw [Tower.height_tree]
    exact lt_tallest h3

/-- Three levels are enough for a tree of height four. -/
theorem parse_reaches_three :
    parse 3 "f(f(x))+x." = .ok [⟨[Tower.tree 2], 1⟩] ∧ (Tower.tree 2).height = 4 ∧
      (Tower.tree 2).height ≤ 1 + 3 * (3 - 1) / 2 := by
  have h : parse 3 "f(f(x))+x." = .ok [⟨[Tower.tree 2], 1⟩] := by decide +kernel
  exact ⟨h, by decide, (parse_reaches (by decide)).1 _ _ h _ (List.mem_singleton_self _) _
    (List.mem_singleton_self _)⟩

end Reckon
