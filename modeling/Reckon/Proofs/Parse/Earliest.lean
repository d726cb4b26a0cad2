import Reckon.Proofs.Parse.Acceptance
import Reckon.Proofs.Parse.Bound
import Reckon.Proofs.Parse.Limit
import Reckon.Proofs.Parse.Misfit

/-!
# Errors at the earliest token

An error that blames a token comes at the first token that cannot be right
(`statements_misfit`): nothing that starts with the tokens up to and with the blamed one is a
program, and the tokens before it can be completed to a program. The completion closes whatever is
open, from the inside out, so that it is found along with the parser's own text: `Completes G before
read` says that `read` can become a `G`, and each rule of the grammar turns completions of its parts
into completions of the whole (`Completes.extend`).

What cannot be completed is an assignment to something other than a variable, which the parser only
notices when it has read the value. Completions are therefore for tokens in which each `=` stands
behind a name (`Grammar.NamesAssigned`).
-/

set_option autoImplicit false

namespace Reckon

/-! ## Completions -/

namespace Grammar

/-- Each `=` stands directly behind a name. -/
def NamesAssigned (ts : List Located) : Prop :=
  ∀ before l after, ts = before ++ ⟨.mark .equals, l⟩ :: after →
    ∃ init x l', before = init ++ [⟨.name x, l'⟩]

/-- Behind the tokens `before`, the tokens `read` can be completed to a `G`. -/
def Completes (G : List Located → Prop) (before read : List Located) : Prop :=
  NamesAssigned (before ++ read) → ∃ more, G (read ++ more)

/-- `L` is for one or more `I` with a comma between each two of them. -/
structure Lists (I L : List Located → Prop) : Prop where
  last : ∀ w, I w → L w
  more : ∀ v l w, I v → L w → L (v ++ ⟨.mark .comma, l⟩ :: w)

/-- Items, however many. -/
abbrev AnyItems (w : List Located) : Prop := ∃ parts, Items parts w

/-- A document of any number of statements. -/
abbrev AnyDocument (w : List Located) : Prop := ∃ parts, Document parts w

/-- An `L` and a closing mark. -/
def Closed (closing : Mark) (L : List Located → Prop) (w : List Located) : Prop :=
  ∃ v l, L v ∧ w = v ++ [⟨.mark closing, l⟩]

section
variable {G H : List Located → Prop} {before w read : List Located}

theorem Completes.imp (h : Completes G before read) (hGH : ∀ v, G v → H v) :
    Completes H before read := by
  intro hn
  obtain ⟨more, hG⟩ := h hn
  exact ⟨more, hGH _ hG⟩

/-- A part is completed, then the whole. -/
theorem Completes.extend (h : Completes G (before ++ w) read)
    (hGH : ∀ v, G v → ∃ more, H (w ++ (v ++ more))) : Completes H before (w ++ read) := by
  intro hn
  obtain ⟨more, hG⟩ := h (by rwa [List.append_assoc])
  obtain ⟨more', hH⟩ := hGH _ hG
  exact ⟨more ++ more', by simpa using hH⟩

theorem Completes.close {L : List Located → Prop} (h : Completes L before read) (closing : Mark) :
    Completes (Closed closing L) before read := by
  intro hn
  obtain ⟨more, hL⟩ := h hn
  exact ⟨more ++ [⟨.mark closing, 0⟩], _, 0, hL, by simp⟩

end

/-! ## Operands -/

/-- An operand that ends in a name is that name. -/
theorem Operand.target {x before init : List Located} {y : String} {l : Nat} (h : Operand x)
    (hx : before ++ x = init ++ [⟨.name y, l⟩]) : Target x := by
  have hlast : (before ++ x).getLast? = some ⟨.name y, l⟩ := by
    rw [hx, List.getLast?_append]
    rfl
  cases h with
  | term h =>
    cases h with
    | number v l' => simp at hlast
    | name z l' => exact .name z l'
    | call => simp [List.getLast?_append, List.getLast?_cons] at hlast
    | group => simp [List.getLast?_append, List.getLast?_cons] at hlast
  | literal h =>
    cases h
    simp [List.getLast?_append, List.getLast?_cons] at hlast

theorem NamesAssigned.target {before x read : List Located} {l : Nat} (hx : Operand x)
    (h : NamesAssigned (before ++ x ++ ⟨.mark .equals, l⟩ :: read)) : Target x := by
  obtain ⟨init, y, l', hinit⟩ := h _ l read rfl
  exact hx.target hinit

theorem Tail.operand {x z w : List Located} : Tail x z w → Operand x → Operand z
  | .nil _, hx => hx
  | .cons _ _ _ hy hw, _ => hw.operand hy

/-- The last operand stands at the end. -/
theorem Tail.exists_append {x z w : List Located} : Tail x z w → ∃ init, x ++ w = init ++ z
  | .nil x => ⟨[], by simp⟩
  | @Tail.cons m l x y z w _ _ _ hw => by
    obtain ⟨init, hinit⟩ := hw.exists_append
    exact ⟨x ++ ⟨.mark m, l⟩ :: init, by simp [hinit]⟩

/-- The first operand of an expression and the last one. -/
theorem Expression.operands {v : List Located} (h : Expression v) :
    ∃ y z u init, v = y ++ u ∧ Operand y ∧ Tail y z u ∧ Operand z ∧ v = init ++ z := by
  cases h with
  | literal h => exact ⟨v, v, [], [], by simp, .literal h, .nil v, .literal h, rfl⟩
  | chain hy hu =>
    obtain ⟨init, hinit⟩ := hu.exists_append
    exact ⟨_, _, _, init, rfl, .term hy, hu, hu.operand (.term hy), hinit⟩

theorem lists_names : Lists (fun w => ∃ x l, w = [⟨.name x, l⟩]) Names := by
  refine ⟨?_, ?_⟩
  · rintro w ⟨x, l, rfl⟩
    exact .last x l
  · rintro v l w ⟨x, l', rfl⟩ hw
    exact .more x l' l hw

theorem lists_items : Lists Expression AnyItems :=
  ⟨fun w hw => ⟨[w], .last hw⟩, fun v l _ hv ⟨parts, hw⟩ => ⟨v :: parts, .more l hv hw⟩⟩

end Grammar

namespace Reading

theorem NotNext.congr {m : Mark} {ts more : List Located} (h : NotNext m ts)
    (heq : more.head? = ts.head?) : NotNext m more := by
  cases more with
  | nil => trivial
  | cons t more =>
    cases ts with
    | nil => cases heq
    | cons t' ts =>
      cases heq
      exact h

theorem Stops.congr {m : Nat} {ts more : List Located} (h : Stops m ts)
    (heq : more.head? = ts.head?) : Stops m more := by
  cases more with
  | nil => trivial
  | cons t more =>
    cases ts with
    | nil => cases heq
    | cons t' ts =>
      cases heq
      exact h

theorem Expression.grammar {limit d m : Nat} {ts w rest : List Located} {e : Expr Unit}
    (h : Expression limit d m ts e rest) (hw : ts = w ++ rest) : Grammar.Expression w := by
  obtain ⟨v, hv, -, hg⟩ := h.derivable
  obtain rfl : v = w := List.append_cancel_right (hv.symm.trans hw)
  rcases hg with hg | ⟨x, z, u, rfl, hx, hu⟩
  · exact .literal hg
  · exact .chain hx hu

theorem Expressions.grammar {limit d : Nat} {ts w rest : List Located} {es : List (Expr Unit)}
    (h : Expressions limit d ts es rest) (hw : ts = w ++ rest) : Grammar.AnyItems w := by
  obtain ⟨parts, v, hv, hg⟩ := h.derivable
  obtain rfl : v = w := List.append_cancel_right (hv.symm.trans hw)
  exact ⟨parts, hg⟩

end Reading

/-! ## Lists -/

namespace Parser

open Grammar (Completes Closed Lists)

section
variable {α : Type} {b : Bounds} {slack n : Nat} {G H I L : List Located → Prop} {p item : Parser α}
  {c : Cursor} {before : List Located}

/-- Where `p` gets stuck behind `w`, its tokens are completed to a `G` and then to an `H`. -/
theorem Settles.extend {endLine : Nat} {w : List Located} {g : List Located → List Located}
    (h : Settles endLine slack (Completes G (before ++ w)) p c) (hg : ∀ read, g read = w ++ read)
    (hGH : ∀ v, G v → ∃ more, H (w ++ (v ++ more))) :
    Settles endLine slack (fun read => Completes H before (g read)) p c := by
  refine h.mono fun read hread => ?_
  rw [hg]
  exact hread.extend hGH

/-- Up to `n` tokens, `item` is settled and reads an `I`. -/
structure SettlesAs (b : Bounds) (slack n : Nat) (I : List Located → Prop) (item : Parser α) :
    Prop where
  settles : ∀ before c, c.rest.length + slack ≤ n →
    Settles b.endLine slack (Completes I before) item c
  reads : ∀ c a c' w, c.rest.length ≤ n → item c = .ok a c' → c.rest = w ++ c'.rest → I w
  length_lt : ∀ c a c', c.rest.length ≤ n → item c = .ok a c' → c'.rest.length < c.rest.length

theorem SettlesAs.list (h : SettlesAs b slack n I item) (hL : Lists I L) {i : Nat}
    (hn : c.rest.length + slack ≤ n) (hi : c.rest.length + slack ≤ i) :
    Settles b.endLine slack (Completes L before) (list item i) c := by
  have hfirst : ∀ before c, c.rest.length + slack ≤ n →
      Settles b.endLine slack (Completes L before) item c := fun before c hn =>
    (h.settles before c hn).mono fun read hread => hread.imp hL.last
  induction i generalizing c before with
  | zero => exact (hfirst before c hn).bind fun _ _ _ _ _ => .pure _
  | succ i ih =>
    refine (hfirst before c hn).bind fun a c₁ w ha hw => ?_
    have hv := h.reads c a c₁ w (by omega) ha hw
    have hlt := h.length_lt c a c₁ (by omega) ha
    rcases accept_cases .comma c₁ with ⟨l, ts, hc, -⟩ | ⟨hnot, -⟩
    · obtain ⟨rest, d⟩ := c₁
      simp only at hc
      subst hc
      simp only [List.length_cons] at hlt
      refine .step ?_ fun more => bind_of_ok (accept_mark ..)
      have hothers : Settles b.endLine slack (Completes L (before ++ (w ++ [⟨.mark .comma, l⟩])))
          (Parser.list item i) ⟨ts, d⟩ := ih (by simp only; omega) (by simp only; omega)
      refine (hothers.extend (by simp) fun v hv' => ⟨[], ?_⟩).bind fun _ _ _ _ _ => .pure _
      simpa using hL.more w l v hv hv'
    · exact .of_head (.pure [a]) fun ts hts => bind_of_ok (accept_of_notNext (hnot.congr hts))

theorem SettlesAs.listUpTo (h : SettlesAs b slack n I item) (hL : Lists I L) (closing : Mark)
    {i : Nat} (hn : c.rest.length + slack ≤ n) (hi : c.rest.length + slack ≤ i) :
    Settles b.endLine slack (Completes (Closed closing L) before)
      (listUpTo b closing item i) c := by
  have hfirst : ∀ before c, c.rest.length + slack ≤ n →
      Settles b.endLine slack (Completes (Closed closing L) before) item c := fun before c hn =>
    (h.settles before c hn).mono fun read hread => (hread.imp hL.last).close closing
  induction i generalizing c before with
  | zero => exact (hfirst before c hn).bind fun _ _ _ _ _ => .pure _
  | succ i ih =>
    refine (hfirst before c hn).bind fun a c₁ w ha hw => ?_
    have hv := h.reads c a c₁ w (by omega) ha hw
    have hlt := h.length_lt c a c₁ (by omega) ha
    have hclose : Completes (Closed closing L) before (w ++ []) :=
      fun _ => ⟨[⟨.mark closing, 0⟩], w, 0, hL.last w hv, by simp⟩
    obtain ⟨_ | ⟨⟨t, l⟩, ts⟩, d⟩ := c₁
    · exact .blameEnd rfl rfl rfl hclose
    simp only [List.length_cons] at hlt
    by_cases hcomma : t = .mark .comma
    · subst hcomma
      have hothers : Settles b.endLine slack
          (Completes (Closed closing L) (before ++ (w ++ [⟨.mark .comma, l⟩])))
          (Parser.listUpTo b closing item i) ⟨ts, d⟩ :=
        ih (by simp only; omega) (by simp only; omega)
      refine .step ((hothers.extend (by simp) ?_).bind fun others _ _ _ _ => .pure (a :: others))
        fun more => rfl
      rintro _ ⟨v, l', hv', rfl⟩
      exact ⟨[], _, l', hL.more w l v hv hv', by simp⟩
    by_cases hclosing : t = .mark closing
    · refine .step (.pure [a]) fun more => ?_
      show (if t = .mark .comma then _ else if t = .mark closing then _ else _ : Parser (List α))
        ⟨more, d⟩ = _
      rw [if_neg hcomma, if_pos hclosing]
    · refine .blame (e := .expected s!"{Mark.comma.description} or {closing.description}"
        t.description l) (fun more => ?_) ⟨rfl, rfl⟩ hclose
      show (if t = .mark .comma then _ else if t = .mark closing then _ else _ : Parser (List α))
        ⟨more, d⟩ = _
      rw [if_neg hcomma, if_neg hclosing]
      rfl

theorem SettlesAs.enclosed (h : SettlesAs b slack n I item) (hL : Lists I L) (closing : Mark)
    {i : Nat} (hn : c.rest.length + slack ≤ n) (hi : c.rest.length + slack ≤ i) :
    Settles b.endLine slack (Completes (Closed closing L) before)
      (enclosed b closing item i) c := by
  rcases accept_cases closing c with ⟨l, ts, hc, -⟩ | ⟨hnot, -⟩
  · obtain ⟨rest, d⟩ := c
    simp only at hc
    subst hc
    exact .step (.pure []) fun more => bind_of_ok (accept_mark ..)
  · exact .of_head (h.listUpTo hL closing hn hi) fun ts hts =>
      bind_of_ok (accept_of_notNext (hnot.congr hts))

theorem settlesAs_name (b : Bounds) (slack n : Nat) :
    SettlesAs b slack n (fun w => ∃ x l, w = [⟨.name x, l⟩]) (name b) := by
  refine ⟨fun before c _ => settles_name fun _ => ⟨[⟨.name "", 0⟩], "", 0, rfl⟩,
    fun c x c' w _ hrun hw => ?_, fun c x c' _ hrun => ?_⟩
  · obtain ⟨l, hc, -⟩ := name_eq_ok hrun
    exact ⟨x, l, List.append_cancel_right
      (show w ++ c'.rest = [⟨.name x, l⟩] ++ c'.rest from hw.symm.trans hc)⟩
  · obtain ⟨l, hc, -⟩ := name_eq_ok hrun
    simp [hc]

end

/-! ## Expressions -/

section
variable {b : Bounds} {slack n : Nat} {expression : Nat → Parser (Expr Unit)} {c : Cursor}
  {before : List Located} (h : ∀ m, SettlesAs b slack n Grammar.Expression (expression m))
include h

theorem settles_term (hn : c.rest.length + slack ≤ n + 1) :
    Settles b.endLine slack (Completes Grammar.Term before) (term b expression n) c := by
  have hnumber : Completes Grammar.Term before [] := fun _ => ⟨[⟨.number 0, 0⟩], .number 0 0⟩
  obtain ⟨_ | ⟨⟨t, l⟩, ts⟩, d⟩ := c
  · exact .blameEnd rfl rfl rfl hnumber
  simp only [List.length_cons] at hn
  cases t with
  | number x => exact .step (.pure _) fun _ => rfl
  | name x =>
    refine .step ?_ fun more => Reading.term_name n
    rcases accept_cases .openParen ⟨ts, d⟩ with ⟨l', ts', hts, -⟩ | ⟨hnot, -⟩
    · simp only at hts
      subst hts
      simp only [List.length_cons] at hn
      refine .step ?_ fun more => bind_of_ok (accept_mark ..)
      have harguments : Settles b.endLine slack
          (Completes (Closed .closeParen Grammar.AnyItems)
            (before ++ [⟨.name x, l⟩, ⟨.mark .openParen, l'⟩]))
          (enclosed b .closeParen (expression 0) n) ⟨ts', d⟩ :=
        (h 0).enclosed Grammar.lists_items _ (by simp only; omega) (by simp only; omega)
      refine (harguments.extend (by simp) ?_).bind fun _ _ _ _ _ => .pure _
      rintro _ ⟨v, l₁, ⟨parts, hv⟩, rfl⟩
      exact ⟨[], by simpa using Grammar.Term.call x l l' l₁ (.some hv)⟩
    · exact .of_head (.pure _) fun more hmore => bind_of_ok (accept_of_notNext (hnot.congr hmore))
  | mark m =>
    cases m with
    | openParen =>
      have hinside : Settles b.endLine slack
          (Completes Grammar.Expression (before ++ [⟨.mark .openParen, l⟩])) (expression 0)
          ⟨ts, d⟩ := (h 0).settles _ _ (by simp only; omega)
      refine .step ((hinside.extend (by simp) fun v hv => ?_).bind fun e c₁ w he hw => ?_)
        fun more => rfl
      · exact ⟨[⟨.mark .closeParen, 0⟩], by simpa using Grammar.Term.group l 0 hv⟩
      · have hv := (h 0).reads _ _ _ _ (by simp only; omega) he hw
        refine .bind_expect ?_ fun _ _ _ => .pure e
        exact fun _ => ⟨[⟨.mark .closeParen, 0⟩], by simpa using Grammar.Term.group l 0 hv⟩
    | _ => exact .blame (fun _ => rfl) ⟨rfl, rfl⟩ hnumber

/-- The chain goes on behind the operand `x`. Whether `x` may be assigned to is known from the
tokens only, since the tree before the loop may be larger. -/
theorem settles_chain {m i opened : Nat} {left : Expr Unit} {x : List Located}
    (hx : Grammar.Operand x) (hn : c.rest.length + slack ≤ n) (hi : c.rest.length + slack ≤ i) :
    Settles b.endLine slack (Completes (fun w => ∃ z, Grammar.Tail x z w) (before ++ x))
      (chain b expression m i opened left) c := by
  induction i generalizing c opened left x before with
  | zero => exact .pure _
  | succ i ih =>
    rcases joint_cases m c with ⟨⟨t, l⟩, j, ts, hc, hj, hm, -⟩ | ⟨hstop, hjoint⟩
    · obtain ⟨rest, d⟩ := c
      simp only at hc
      subst hc
      simp only [List.length_cons] at hn hi
      refine .step ?_ fun more => bind_of_ok (joint_token hj hm more)
      obtain ⟨m', hm', rfl, -⟩ := Joint.mark_of_ofToken? hj
      have htarget : ∀ read, Grammar.NamesAssigned (before ++ x ++ ⟨.mark m', l⟩ :: read) →
          m' = .equals → Grammar.Target x := by
        rintro read hread rfl
        exact hread.target hx
      refine .bind_enter ?_
      have hright : Settles b.endLine slack
          (Completes Grammar.Expression (before ++ x ++ [⟨.mark m', l⟩])) (expression j.precedence)
          ⟨ts, d + 1⟩ := (h _).settles _ _ (by simp only; omega)
      refine (hright.mono fun read hread hassigned => ?_).bind fun right c₁ w hrun hw => ?_
      · obtain ⟨more, hE⟩ := hread (by simpa using hassigned)
        obtain ⟨y, z, u, -, hv, hy, hu, -, -⟩ := hE.operands
        exact ⟨more, z, by simpa [hv] using Grammar.Tail.cons l hm' (htarget _ hassigned) hy hu⟩
      · have hv := (h _).reads _ _ _ _ (by simp only; omega) hrun hw
        have hlt := (h _).length_lt _ _ _ (by simp only; omega) hrun
        simp only at hlt
        cases hcomb : j.combine l left right with
        | error e =>
          have he : e.found? = none := by
            cases j with
            | assign => cases left <;> cases hcomb <;> rfl
            | arithmetic op => cases hcomb
          exact .of_error rfl he
        | ok joined =>
          obtain ⟨y, z, u, init, hyu, hy, hu, hz, hinit⟩ := hv.operands
          have hrest : Settles b.endLine slack (Completes (fun w => ∃ z', Grammar.Tail z z' w)
              (before ++ x ++ ⟨.mark m', l⟩ :: init ++ z))
              (chain b expression m i (opened + 1) joined) c₁ := ih hz (by omega) (by omega)
          refine hrest.mono fun read hread hassigned => ?_
          obtain ⟨more, z', hz'⟩ := hread (by simpa [hinit] using hassigned)
          exact ⟨more, z', by
            simpa [hyu] using Grammar.Tail.cons l hm' (htarget _ hassigned) hy (hu.append hz')⟩
    · exact .of_head (.pure _) fun ts hts => chain_of_stops (hstop.congr hts)

theorem settles_operation {limit m : Nat} (hr : Reads limit n expression)
    (hn : c.rest.length + slack ≤ n + 1) :
    Settles b.endLine slack (Completes Grammar.Expression before)
      (operation b expression m n) c := by
  have hfirst : Settles b.endLine slack (Completes Grammar.Expression before)
      (term b expression n) c := by
    refine (settles_term h hn).mono fun read hread => hread.imp fun v hv => ?_
    simpa using Grammar.Expression.chain hv (.nil v)
  refine hfirst.bind fun first c₁ x hrun hx => ?_
  obtain ⟨hread, -⟩ := hr.term (by omega) hrun
  have hlt := hread.length_lt
  have hterm : Grammar.Term x := by
    obtain ⟨w, hw, -, hw'⟩ := hread.derivable
    rwa [List.append_cancel_right (hx.symm.trans hw)]
  have hchain : Settles b.endLine slack
      (Completes (fun w => ∃ z, Grammar.Tail x z w) (before ++ x))
      (chain b expression m n 0 first) c₁ :=
    settles_chain h (.term hterm) (by omega) (by omega)
  refine (hchain.extend (fun _ => rfl) fun v ⟨z, hz⟩ => ⟨[], ?_⟩).bind fun r c₂ _ _ _ => ?_
  · simpa using Grammar.Expression.chain hterm hz
  · exact .of_head (d := c₂.depth - r.2) (.pure r.1) fun _ _ => rfl

theorem settles_functionLiteral {limit : Nat} (hr : Reads limit n expression)
    (hn : c.rest.length + slack ≤ n + 1) :
    Settles b.endLine slack (Completes Grammar.Literal before)
      (functionLiteral b expression n) c := by
  -- the shortest ends of a literal behind its first word, its parameters and its body
  have hempty : ∀ l l', Grammar.Literal [⟨.mark .function, l⟩, ⟨.mark .openParen, l'⟩,
      ⟨.mark .closeParen, 0⟩, ⟨.mark .arrow, 0⟩, ⟨.mark .finish, 0⟩] := fun l l' =>
    .mk l l' 0 0 0 .none .none
  refine .bind_expect (fun _ => ⟨_, hempty 0 0⟩) fun l c₁ hc₁ => ?_
  refine .bind_expect (fun _ => ⟨_, hempty l 0⟩) fun l' c₂ hc₂ => ?_
  simp only [hc₁, hc₂, List.length_cons] at hn
  have hparams : Settles b.endLine slack (Completes (Closed .closeParen Grammar.Names)
      (before ++ [⟨.mark .function, l⟩, ⟨.mark .openParen, l'⟩]))
      (enclosed b .closeParen (name b) n) c₂ :=
    (settlesAs_name b slack n).enclosed Grammar.lists_names _ (by omega) (by omega)
  refine (hparams.extend (by simp) ?_).bind fun params c₃ w hrun hw => ?_
  · rintro _ ⟨v, l₁, hv, rfl⟩
    exact ⟨[⟨.mark .arrow, 0⟩, ⟨.mark .finish, 0⟩],
      by simpa using Grammar.Literal.mk l l' l₁ 0 0 (.some hv) .none⟩
  obtain ⟨hread, -⟩ := params_of_enclosed (by omega) hrun
  have hlt := hread.length_lt
  obtain ⟨v, l₁, rfl, hv⟩ : ∃ v l₁, w = v ++ [⟨.mark .closeParen, l₁⟩] ∧ Grammar.Params v := by
    obtain ⟨v, l₁, hv, hv'⟩ := hread.derivable
    exact ⟨v, l₁, List.append_cancel_right (hw.symm.trans (hv.trans (by simp))), hv'⟩
  refine .bind_expect (fun _ => ⟨[⟨.mark .arrow, 0⟩, ⟨.mark .finish, 0⟩],
    by simpa using Grammar.Literal.mk l l' l₁ 0 0 hv .none⟩) fun l₂ c₄ hc₄ => ?_
  simp only [hc₄, List.length_cons] at hlt
  rcases ahead_cases .finish c₄ with ⟨l₃, ts, hfinish, -⟩ | ⟨hnot, -⟩
  · refine .of_head (d := c₄.depth) (q := expect b .finish >>= fun _ =>
      pure (.function () params [] l)) ?_ fun ts' hts' => ?_
    · refine .bind_expect (fun _ => ⟨[⟨.mark .finish, 0⟩], ?_⟩) fun _ _ _ => .pure _
      simpa using Grammar.Literal.mk l l' l₁ l₂ 0 hv .none
    · rw [hfinish] at hts'
      obtain ⟨ts'', rfl⟩ : ∃ ts'', ts' = ⟨.mark .finish, l₃⟩ :: ts'' :=
        List.head?_eq_some_iff.1 hts'
      exact (bind_of_ok (show ahead .finish _ = .ok true _ from rfl)).trans rfl
  · refine .of_head (d := c₄.depth) (q := list (expression 0) n >>= fun body =>
      expect b .finish >>= fun _ => pure (.function () params body l)) ?_ fun ts' hts' =>
        bind_of_ok (ahead_of_notNext (hnot.congr hts'))
    have hbody : Settles b.endLine slack (Completes Grammar.AnyItems
        (before ++ (⟨.mark .function, l⟩ :: ⟨.mark .openParen, l'⟩ ::
          (v ++ [⟨.mark .closeParen, l₁⟩, ⟨.mark .arrow, l₂⟩])))) (list (expression 0) n) c₄ :=
      (h 0).list Grammar.lists_items (by omega) (by omega)
    refine (hbody.extend (by simp) fun u ⟨parts, hu⟩ => ⟨[⟨.mark .finish, 0⟩], ?_⟩).bind
      fun body c₅ u hrun₅ hu => ?_
    · simpa using Grammar.Literal.mk l l' l₁ l₂ 0 hv (.some hu)
    · obtain ⟨hread₅, -⟩ := hr.list (by omega) (by omega) hrun₅
      obtain ⟨parts, hparts⟩ := hread₅.grammar hu
      refine .bind_expect (fun _ => ⟨[⟨.mark .finish, 0⟩], ?_⟩) fun _ _ _ => .pure _
      simpa using Grammar.Literal.mk l l' l₁ l₂ 0 hv (.some hparts)

end

/-- By induction on the bound: each nested expression stands behind a token. -/
theorem settlesAs_expressionWithin (b : Bounds) (slack n m : Nat) :
    SettlesAs b slack n Grammar.Expression (expressionWithin b n m) := by
  induction n generalizing m with
  | zero =>
    refine ⟨fun before c hn => ?_, fun c e c' w hn hrun hw => ?_, fun c e c' hn hrun => ?_⟩
    · obtain ⟨_ | ⟨t, ts⟩, d⟩ := c
      · refine .nested (.blameEnd rfl rfl rfl fun _ => ⟨[⟨.number 0, 0⟩], ?_⟩)
        simpa using Grammar.Expression.chain (.number 0 0) (.nil _)
      · simp only [List.length_cons] at hn
        omega
    · exact (reads_expressionWithin b 0 m c e c' hn hrun).1.grammar hw
    · exact (reads_expressionWithin b 0).length_lt hn e c' hrun
  | succ n ih =>
    have hr := reads_expressionWithin b n
    refine ⟨fun before c hn => .nested ?_, fun c e c' w hn hrun hw => ?_, fun c e c' hn hrun => ?_⟩
    · rcases ahead_cases .function { c with depth := c.depth + 1 } with ⟨l, ts, hc, -⟩ | ⟨hnot, -⟩
      · have hliteral : Settles b.endLine slack (Completes Grammar.Literal before)
            (functionLiteral b (expressionWithin b n) n) ⟨c.rest, c.depth + 1⟩ :=
          settles_functionLiteral ih hr hn
        refine .of_head (hliteral.mono fun read hread => hread.imp fun _ hv => .literal hv) ?_
        intro ts' hts'
        rw [hc] at hts'
        obtain ⟨ts'', rfl⟩ : ∃ ts'', ts' = ⟨.mark .function, l⟩ :: ts'' :=
          List.head?_eq_some_iff.1 hts'
        exact bind_of_ok (show ahead .function _ = .ok true _ from rfl)
      · exact .of_head (settles_operation (c := ⟨c.rest, c.depth + 1⟩) ih hr hn) fun ts' hts' =>
          bind_of_ok (ahead_of_notNext (hnot.congr hts'))
    · exact (reads_expressionWithin b (n + 1) m c e c' hn hrun).1.grammar hw
    · exact (reads_expressionWithin b (n + 1)).length_lt hn e c' hrun

/-! ## Programs -/

section
variable {b : Bounds} {slack n : Nat} {c : Cursor} {before : List Located}

theorem settles_statementWithin (hn : c.rest.length + slack ≤ n) :
    Settles b.endLine slack (Completes (Closed .dot Grammar.AnyItems) before)
      (statementWithin b n) c := by
  refine .of_head (d := c.depth) (q := expressionsWithin b n >>= fun expressions =>
    expect b .dot >>= fun _ => pure ⟨expressions, (c.rest.head?.map Located.line).getD b.endLine⟩)
    ?_ fun ts hts => ?_
  · have hitems : Settles b.endLine slack (Completes Grammar.AnyItems before)
        (expressionsWithin b n) c :=
      (settlesAs_expressionWithin b slack n 0).list Grammar.lists_items hn hn
    refine (hitems.mono fun read hread => hread.close .dot).bind fun es c₁ w hrun hw => ?_
    obtain ⟨hread, -⟩ := (reads_expressionWithin b n).list (by omega) (by omega) hrun
    have hw' := hread.grammar hw
    refine .bind_expect (fun _ => ⟨[⟨.mark .dot, 0⟩], w, 0, hw', by simp⟩) fun _ _ _ => .pure _
  · refine bind_of_ok ?_
    rw [← hts]
    cases ts <;> rfl

theorem settles_statementsWithin (hn : c.rest.length + slack ≤ n) :
    Settles b.endLine slack (Completes Grammar.AnyDocument before) (statementsWithin b n) c := by
  have hfirst : ∀ n before c, c.rest.length + slack ≤ n →
      Settles b.endLine slack (Completes Grammar.AnyDocument before) (statementWithin b n) c := by
    intro n before c hn
    refine (settles_statementWithin hn).mono fun read hread => hread.imp ?_
    rintro _ ⟨v, l, ⟨items, hv⟩, rfl⟩
    exact ⟨[items], .last l hv⟩
  induction n generalizing c before with
  | zero => exact (hfirst 0 before c hn).bind fun _ _ _ _ _ => .pure _
  | succ n ih =>
    refine (hfirst (n + 1) before c hn).bind fun s c₁ w hrun hw => ?_
    obtain ⟨t, ts, l, hc, -, hread, -⟩ := statementWithin_eq_ok (by omega) hrun
    have hlt := hread.length_lt
    simp only [List.length_cons] at hlt
    obtain ⟨_ | ⟨u, rest⟩, d⟩ := c₁
    · refine .of_head (d := d) (.pure [s]) fun more hmore => ?_
      obtain rfl : more = [] := by simpa using hmore
      rfl
    · have hothers : Settles b.endLine slack (Completes Grammar.AnyDocument (before ++ w))
          (statementsWithin b n) ⟨u :: rest, d⟩ := ih (by
            rw [hc] at hn
            simp only [List.length_cons] at hn hlt ⊢
            omega)
      obtain ⟨items, v, hv, hitems⟩ := hread.derivable
      obtain rfl : w = v ++ [⟨.mark .dot, l⟩] := by
        rw [hc, hv] at hw
        exact List.append_cancel_right (hw.symm.trans (by simp))
      refine .of_head (d := d) ((hothers.extend (fun _ => rfl) ?_).bind
        fun others _ _ _ _ => .pure (s :: others)) fun more hmore => ?_
      · rintro v' ⟨parts, hparts⟩
        exact ⟨[], _, by simpa using Grammar.Document.more l hitems hparts⟩
      · obtain ⟨more', rfl⟩ : ∃ more', more = u :: more' := List.head?_eq_some_iff.1 hmore
        rfl

/-- The parser blames a token, or the end of the tokens, where `Stuck` says, and the tokens before
can be completed. -/
theorem statements_stuck {ts : List Located} {e : SyntaxError} {c' : Cursor}
    (h : statements b { rest := ts } = .error e c') (he : e.IsMisfit) (slack : Nat) :
    ∃ read,
      Stuck b.endLine slack (statementsWithin b (ts.length + slack)) { rest := ts } e c' read ∧
      Completes Grammar.AnyDocument [] read := by
  have hsettles : Settles b.endLine slack (Completes Grammar.AnyDocument [])
      (statementsWithin b (ts.length + slack)) { rest := ts } :=
    settles_statementsWithin (Nat.le_refl _)
  refine hsettles.error e c' ?_ he
  rw [← h]
  exact (statementsWithin_eq (Nat.le_refl _) (by simp only; omega)).symm

/-- The blamed token is blamed whatever follows it. -/
theorem statements_blame {ts : List Located} {e : SyntaxError} {c' : Cursor}
    (h : statements b { rest := ts } = .error e c') (he : e.IsMisfit) :
    ∃ read, Completes Grammar.AnyDocument [] read ∧
      ((e.IsAtEnd ∧ read = ts ∧ e.line = b.endLine) ∨
        ∃ t, ts = read ++ t :: c'.rest ∧ e.Blames t ∧
          ∀ more, ∃ c₁, statements b { rest := read ++ t :: more } = .error e c₁) := by
  obtain ⟨read, hstuck, hcompletes⟩ := statements_stuck h he 0
  refine ⟨read, hcompletes, ?_⟩
  cases hstuck with
  | finish hread _ hend hline => exact .inl ⟨hend, hread.symm, hline⟩
  | @token t hread hblames _ =>
    refine .inr ⟨t, hread, hblames, fun more => ?_⟩
    obtain ⟨read', hstuck', -⟩ := statements_stuck h he more.length
    cases hstuck' with
    | finish _ _ hend _ => exact absurd hend hblames.not_isAtEnd
    | @token t' hread' _ hsame =>
      -- the room that the parser is given does not change where it stops
      have hcut : read ++ [t] = read' ++ [t'] :=
        List.append_cancel_right (show read ++ [t] ++ c'.rest = read' ++ [t'] ++ c'.rest by
          simpa using hread.symm.trans hread')
      obtain ⟨rfl, ht⟩ := List.append_inj' hcut rfl
      cases ht
      obtain ⟨d, hd⟩ := hsame more (by omega)
      refine ⟨⟨more, d⟩, ?_⟩
      rw [← hd]
      refine statementsWithin_eq (Nat.le_refl _) ?_
      simp only at hread
      rw [hread]
      simp only [List.length_append, List.length_cons]
      omega

/-- What fails at a token under one limit is accepted under none. -/
theorem statements_ne_ok {ts : List Located} {e : SyntaxError} {c' : Cursor}
    (h : statements b { rest := ts } = .error e c') (he : e.IsMisfit) (b' : Bounds) :
    ¬ ∃ program c'', statements b' { rest := ts } = .ok program c'' := by
  rintro ⟨program, c'', hok⟩
  -- both runs are compared with the run under the larger limit
  have hfails : statements { b with limit := max b.limit b'.limit } { rest := ts } =
      .error e c' := by
    rw [← h]
    refine (guarded_statements (Nat.le_max_left _ _)).eq_of_not fun e₁ c₁ h₁ hdeep => ?_
    rw [h] at h₁
    cases h₁
    obtain ⟨line, rfl⟩ := hdeep
    exact he rfl
  have hworks : statements { b' with limit := max b.limit b'.limit } { rest := ts } =
      .ok program c'' := by
    rw [← hok]
    refine (guarded_statements (Nat.le_max_right _ _)).eq_of_not fun e₁ c₁ h₁ _ => ?_
    rw [hok] at h₁
    cases h₁
  -- success does not depend on the line that stands for the end
  have hprogram := statements_eq_ok_iff.1 hworks
  have hagain : statements { b with limit := max b.limit b'.limit } { rest := ts } =
      .ok program c'' := statements_eq_ok_iff.2 hprogram
  rw [hfails] at hagain
  cases hagain

end

end Parser

/-- An error that blames a token, or the end of the tokens, does so at the earliest token: its line
is that of the token, or the one that stands for the end; no tokens that start with those before the
blamed one and that token itself are a program, under any limit; and those before it can be
completed to a program, unless one of their `=` does not stand behind a name. -/
theorem statements_misfit (b : Bounds) (ts : List Located) {e : SyntaxError} {c : Cursor}
    (h : Parser.statements b { rest := ts } = .error e c) (he : e.IsMisfit) :
    ∃ read,
      ((e.IsAtEnd ∧ read = ts ∧ e.line = b.endLine) ∨
        ∃ t, ¬ e.IsAtEnd ∧ ts = read ++ t :: c.rest ∧ e.Blames t ∧ e.line = t.line ∧
          ∀ b' more, ¬ ∃ program c',
            Parser.statements b' { rest := read ++ t :: more } = .ok program c') ∧
      (Grammar.NamesAssigned read → ∃ more limit, ∀ b', limit ≤ b'.limit →
        ∃ program c', Parser.statements b' { rest := read ++ more } = .ok program c') := by
  obtain ⟨read, hcompletes, hblame⟩ := Parser.statements_blame h he
  refine ⟨read, ?_, fun hassigned => ?_⟩
  · rcases hblame with hend | ⟨t, hread, hblames, hsame⟩
    · exact .inl hend
    · refine .inr ⟨t, hblames.not_isAtEnd, hread, hblames, hblames.line, fun b' more => ?_⟩
      obtain ⟨c₁, hc₁⟩ := hsame more
      exact Parser.statements_ne_ok hc₁ he b'
  · obtain ⟨more, parts, hparts⟩ := hcompletes hassigned
    refine ⟨more, 2 * (read ++ more).length + 1, fun b' hb' => ?_⟩
    obtain ⟨program, hprogram, -⟩ := hparts.parsed hb'
    exact ⟨program, _, Parser.statements_eq_ok_iff.2 ⟨hprogram, rfl⟩⟩

/-- The tokens of `x = (y .`: the point is blamed, and what stands before it can be completed. -/
theorem statements_misfit_unclosed :
    Parser.statements ⟨11, 1⟩ { rest := [⟨.name "x", 1⟩, ⟨.mark .equals, 1⟩, ⟨.mark .openParen, 1⟩,
      ⟨.name "y", 1⟩, ⟨.mark .dot, 1⟩] } = .error (.expected "')'" "'.'" 1) ⟨[], 1⟩ ∧
    ∃ more limit, ∀ b', limit ≤ b'.limit → ∃ program c', Parser.statements b'
      { rest := [⟨.name "x", 1⟩, ⟨.mark .equals, 1⟩, ⟨.mark .openParen, 1⟩, ⟨.name "y", 1⟩] ++
        more } = .ok program c' := by
  have h : Parser.statements ⟨11, 1⟩ { rest := [⟨.name "x", 1⟩, ⟨.mark .equals, 1⟩,
      ⟨.mark .openParen, 1⟩, ⟨.name "y", 1⟩, ⟨.mark .dot, 1⟩] } =
        .error (.expected "')'" "'.'" 1) ⟨[], 1⟩ := by decide +kernel
  obtain ⟨read, hblame, hcomplete⟩ := statements_misfit _ _ h (by decide)
  rcases hblame with ⟨hend, -⟩ | ⟨t, -, hread, -⟩
  · exact absurd hend (by decide)
  · obtain ⟨rfl, -⟩ : [⟨.name "x", 1⟩, ⟨.mark .equals, 1⟩, ⟨.mark .openParen, 1⟩, ⟨.name "y", 1⟩] =
        read ∧ [(⟨.mark .dot, 1⟩ : Located)] = [t] := List.append_inj' hread rfl
    refine ⟨h, hcomplete ?_⟩
    rintro (_ | ⟨t₁, _ | ⟨t₂, before⟩⟩) l after heq
    · simp at heq
    · simp only [List.cons_append, List.cons.injEq] at heq
      exact ⟨[], "x", 1, by rw [← heq.1]; rfl⟩
    · rcases before with _ | ⟨t₃, _ | ⟨t₄, before⟩⟩ <;> simp at heq

end Reckon
