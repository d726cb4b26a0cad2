import Mathlib.Data.List.Dedup
import Mathlib.Data.List.Forall2
import Mathlib.Data.List.Induction
import Reckon.Scope

/-!
# Scopes and their history

A scope is the outcome of a row of actions: scopes are opened inside it and closed again, names are
read and written. What it answers can be told from that row, without any table (`after_answers`): the
value of a name is the one that it was given last in the innermost open scope that gives it one.

`History` is what the row says. A scope is known by the action that opened it, so that its number is
never used again, and what has been defined in a closed scope stays in the history without ever being
asked for. The tables of a scope are those of the open scopes of its history (`Records`), and each
action keeps it so. That closing a scope brings back the one before it was opened is a matter of the
numbers alone (`opened_of_current`).
-/

set_option autoImplicit false

namespace Reckon

namespace Scope

variable {τ : Type}

/-- What is done to scopes: a new scope is opened inside the current one, the current scope is
closed, a name is read or written in it. -/
inductive Action (τ : Type) where
  | push
  | pop
  | read (name : String)
  | write (name : String) (value : Value τ)

/-- The current scope after one more action. -/
def perform (s : Scope τ) : Action τ → Scope τ
  | .push => s.push
  | .pop => s.pop
  | .read name => (s.read name).2
  | .write name value => s.write name value

/-- The current scope after the actions, the first of which finds an empty root. -/
def after (actions : List (Action τ)) : Scope τ := actions.foldl perform empty

/-- A name has been given a value in the scope of the given number. -/
structure Definition (τ : Type) where
  scope : Nat
  name : String
  value : Value τ

/-- What a row of actions says about scopes. The root has the number zero, and the scope that the
`i`-th action opens has the number `i`. -/
structure History (τ : Type) where
  /-- The number of actions so far. -/
  length : Nat := 0
  /-- The number of the current scope. -/
  current : Nat := 0
  /-- The numbers of the scopes around it that are open, from the inside outwards. -/
  outer : List Nat := []
  /-- What has been defined so far, in whatever scope, the latest first. -/
  definitions : List (Definition τ) := []

namespace History

/-- The value that a name was given last in a scope. -/
def latest? (h : History τ) (scope : Nat) (name : String) : Option (Value τ) :=
  (h.definitions.find? fun d => d.scope = scope ∧ d.name = name).map Definition.value

/-- The value that a name was given last in the innermost open scope that has defined it. -/
def visible? (h : History τ) (name : String) : Option (Value τ) :=
  (h.current :: h.outer).findSome? fun scope => h.latest? scope name

/-- The names that have been defined in a scope, as often as they have been. -/
def names (h : History τ) (scope : Nat) : List String :=
  (h.definitions.filter fun d => d.scope = scope).map Definition.name

/-- A name is given a value in the current scope. -/
def define (h : History τ) (name : String) (value : Value τ) : History τ :=
  { h with definitions := ⟨h.current, name, value⟩ :: h.definitions }

/-- What an action changes. A read defines a name that no open scope has defined; the root is never
closed. -/
def change (h : History τ) : Action τ → History τ
  | .push => { h with current := h.length + 1, outer := h.current :: h.outer }
  | .pop =>
    match h.outer with
    | [] => h
    | scope :: scopes => { h with current := scope, outer := scopes }
  | .read name => if (h.visible? name).isNone then h.define name .zero else h
  | .write name value => h.define name value

/-- The history with one more action. -/
def add (h : History τ) (a : Action τ) : History τ := { h.change a with length := h.length + 1 }

def of (actions : List (Action τ)) : History τ := actions.foldl add {}

end History

/-! ## One more action -/

theorem after_concat (actions : List (Action τ)) (a : Action τ) :
    after (actions ++ [a]) = (after actions).perform a := by
  rw [after, List.foldl_append, List.foldl_cons, List.foldl_nil, ← after]

theorem History.of_concat (actions : List (Action τ)) (a : Action τ) :
    of (actions ++ [a]) = (of actions).add a := by
  rw [of, List.foldl_append, List.foldl_cons, List.foldl_nil, ← of]

theorem History.length_of (actions : List (Action τ)) : (of actions).length = actions.length := by
  induction actions using List.reverseRecOn with
  | nil => rfl
  | append_singleton actions a ih => simp [of_concat, add, ih]

/-! ## Definitions -/

namespace History

variable {h : History τ} {scope : Nat} {name : String} {value : Value τ}

theorem latest?_define (other : String) : (h.define name value).latest? scope other =
    if h.current = scope ∧ name = other then some value else h.latest? scope other := by
  unfold latest? define
  rw [List.find?_cons]
  by_cases hd : h.current = scope ∧ name = other <;> simp [hd]

theorem names_define : (h.define name value).names scope =
    if h.current = scope then name :: h.names scope else h.names scope := by
  unfold names define
  by_cases hs : h.current = scope <;> simp [hs]

theorem isSome_latest? : (h.latest? scope name).isSome ↔ name ∈ h.names scope := by
  simp only [latest?, names, Option.isSome_map, List.find?_isSome, List.mem_map, List.mem_filter,
    decide_eq_true_eq, and_assoc]

end History

/-- The table has what has been defined in the scope of the given number. -/
structure Holds (h : History τ) (scope : Nat) (t : Table τ) : Prop where
  get : ∀ name : String, t[name]? = h.latest? scope name
  size : t.size = (h.names scope).dedup.length

section
variable {h : History τ} {scope : Nat} {t : Table τ} {name : String} {value : Value τ}

theorem Holds.congr {h' : History τ} (ht : Holds h scope t)
    (hd : h'.definitions = h.definitions) : Holds h' scope t := by
  exact ⟨fun name => by rw [History.latest?, hd]; exact ht.get name,
    by rw [History.names, hd]; exact ht.size⟩

theorem Holds.mem_iff (ht : Holds h scope t) : name ∈ t ↔ name ∈ h.names scope := by
  rw [← History.isSome_latest?, ← ht.get, Std.ExtTreeMap.isSome_getElem?_iff_mem]

theorem holds_empty (hnew : ∀ d ∈ h.definitions, d.scope ≠ scope) : Holds h scope ∅ := by
  have hnames : h.names scope = [] := by
    rw [History.names, List.filter_eq_nil_iff.2 (by simpa using hnew), List.map_nil]
  refine ⟨fun name => ?_, by rw [hnames]; rfl⟩
  have hnone : ¬ (h.latest? scope name).isSome := by
    rw [History.isSome_latest?, hnames]
    exact List.not_mem_nil
  rw [Std.ExtTreeMap.getElem?_empty, Option.not_isSome_iff_eq_none.1 hnone]

theorem Holds.insert (ht : Holds h h.current t) :
    Holds (h.define name value) h.current (t.insert name value) := by
  refine ⟨fun other => ?_, ?_⟩
  · rw [History.latest?_define, Std.ExtTreeMap.getElem?_insert, ht.get]
    simp
  · rw [History.names_define, if_pos rfl, Std.ExtTreeMap.size_insert, ht.size]
    by_cases hname : name ∈ h.names h.current
    · rw [if_pos (Std.ExtTreeMap.contains_iff_mem.2 (ht.mem_iff.2 hname)),
        List.dedup_cons_of_mem hname]
    · rw [if_neg fun hmem => hname (ht.mem_iff.1 (Std.ExtTreeMap.contains_iff_mem.1 hmem)),
        List.dedup_cons_of_notMem hname, List.length_cons]

theorem Holds.of_ne (ht : Holds h scope t) (hne : h.current ≠ scope) :
    Holds (h.define name value) scope t := by
  refine ⟨fun other => ?_, ?_⟩
  · rw [History.latest?_define, if_neg fun hd => hne hd.1, ht.get]
  · rw [History.names_define, if_neg hne, ht.size]

end

/-! ## Tables and open scopes -/

/-- The tables of the scope are those of the open scopes of its history. Scopes further out have
smaller numbers, and no number is greater than that of the actions. -/
structure Records (h : History τ) (s : Scope τ) : Prop where
  locals : Holds h h.current s.locals
  outer : List.Forall₂ (Holds h) h.outer s.outer
  descending : (h.current :: h.outer).Pairwise (· > ·)
  current_le : h.current ≤ h.length
  defined : ∀ d ∈ h.definitions, d.scope ≤ h.length

namespace Records

variable {h : History τ} {s : Scope τ}

theorem lookup?_eq (hs : Records h s) (name : String) : s.lookup? name = h.visible? name := by
  have hall : ∀ {scopes : List Nat} {tables : List (Table τ)},
      List.Forall₂ (Holds h) scopes tables →
        (tables.findSome? fun t => t[name]?) = scopes.findSome? fun n => h.latest? n name := by
    intro scopes tables htables
    induction htables with
    | nil => rfl
    | cons ht _ ih => rw [List.findSome?_cons, List.findSome?_cons, ht.get, ih]
  exact hall (.cons hs.locals hs.outer)

theorem later (hs : Records h s) : Records { h with length := h.length + 1 } s :=
  ⟨hs.locals.congr rfl, hs.outer.imp fun _ _ ht => ht.congr rfl, hs.descending,
    Nat.le_succ_of_le hs.current_le, fun d hd => Nat.le_succ_of_le (hs.defined d hd)⟩

theorem push (hs : Records h s) : Records (h.add .push) s.push := by
  have hnumbers : ∀ n ∈ h.current :: h.outer, n < h.length + 1 := by
    intro n hn
    have hle : n ≤ h.current := by
      rcases List.mem_cons.1 hn with rfl | hn
      · exact Nat.le_refl _
      · exact Nat.le_of_lt (List.rel_of_pairwise_cons hs.descending hn)
    have := hs.current_le
    omega
  refine ⟨holds_empty fun d hd => ?_,
    .cons (hs.locals.congr rfl) (hs.outer.imp fun _ _ ht => ht.congr rfl),
    .cons hnumbers hs.descending, Nat.le_refl _, hs.later.defined⟩
  have := hs.defined d hd
  show d.scope ≠ h.length + 1
  omega

theorem pop (hs : Records h s) : Records (h.add .pop) s.pop := by
  obtain ⟨length, current, outer, definitions⟩ := h
  obtain ⟨locals, tables⟩ := s
  obtain ⟨hlocals, houter, hdescending, hcurrent, hdefined⟩ := hs.later
  cases houter with
  | nil => exact ⟨hlocals.congr rfl, .nil, hdescending, hcurrent, hdefined⟩
  | @cons n t scopes tables ht houter =>
    obtain ⟨hlt, hdescending⟩ := List.pairwise_cons.1 hdescending
    have hn : n < current := hlt n List.mem_cons_self
    have hle : current ≤ length + 1 := hcurrent
    exact ⟨ht.congr rfl, houter.imp fun _ _ ht => ht.congr rfl, hdescending,
      by simp only [History.add, History.change]; omega, hdefined⟩

theorem define (hs : Records h s) (name : String) (value : Value τ) :
    Records (h.define name value) (s.write name value) := by
  refine ⟨hs.locals.insert, ?_, hs.descending, hs.current_le, fun d hd => ?_⟩
  · -- the scopes around the current one have other numbers
    have hne : ∀ n ∈ h.outer, h.current ≠ n := fun n hn =>
      Nat.ne_of_gt (List.rel_of_pairwise_cons hs.descending hn)
    exact ((List.forall₂_and_left _ _).2 ⟨hne, hs.outer⟩).imp fun _ _ ht => ht.2.of_ne ht.1
  · rcases List.mem_cons.1 hd with rfl | hd
    · exact hs.current_le
    · exact hs.defined d hd

theorem add (hs : Records h s) (a : Action τ) : Records (h.add a) (s.perform a) := by
  cases a with
  | push => exact hs.push
  | pop => exact hs.pop
  | read name =>
    have hvisible := hs.lookup?_eq name
    rw [History.add, History.change, perform, Scope.read, ← hvisible]
    cases s.lookup? name with
    | some value => exact hs.later
    | none => exact (hs.define name .zero).later
  | write name value => exact (hs.define name value).later

end Records

theorem records_after (actions : List (Action τ)) : Records (.of actions) (after actions) := by
  induction actions using List.reverseRecOn with
  | nil => exact ⟨holds_empty nofun, .nil, List.pairwise_singleton _ _, Nat.le_refl _, nofun⟩
  | append_singleton actions a ih =>
    rw [History.of_concat, after_concat]
    exact ih.add a

/-! ## Closing a scope -/

/-- The current scope is the one that the action behind the first `i` has opened, and around it all is
as it was before that action. -/
structure Opened (actions : List (Action τ)) (i : Nat) : Prop where
  push : actions[i]? = some .push
  tables : (after actions).outer =
    (after (actions.take i)).locals :: (after (actions.take i)).outer
  scopes : (History.of actions).outer =
    (History.of (actions.take i)).current :: (History.of (actions.take i)).outer

/-- After more actions it is still so, if these leave the scopes around the current one alone. -/
theorem Opened.extend {actions more : List (Action τ)} {i : Nat} (h : Opened actions i)
    (hearly : actions <+: more) (htables : (after more).outer = (after actions).outer)
    (hscopes : (History.of more).outer = (History.of actions).outer) : Opened more i := by
  obtain ⟨rest, rfl⟩ := hearly
  have hlt := (List.getElem?_eq_some_iff.1 h.push).1
  have htake : (actions ++ rest).take i = actions.take i :=
    List.take_append_of_le_length (Nat.le_of_lt hlt)
  exact ⟨(List.getElem?_append_left hlt).trans h.push, by rw [htables, htake, h.tables],
    by rw [hscopes, htake, h.scopes]⟩

theorem opened_push (actions : List (Action τ)) :
    Opened (actions ++ [.push]) actions.length := by
  have htake : (actions ++ [Action.push]).take actions.length = actions := List.take_left' rfl
  refine ⟨List.getElem?_concat_length, ?_, ?_⟩
  · rw [htake, after_concat]
    rfl
  · rw [htake, History.of_concat]
    rfl

section
variable {actions : List (Action τ)} {i : Nat} (h : Opened actions i)
include h

/-- Closing the scope brings back the one before it was opened. -/
theorem Opened.after_pop : after (actions ++ [.pop]) = after (actions.take i) := by
  rw [after_concat, perform, pop, parent?, h.tables]
  rfl

theorem Opened.change_pop : ((History.of actions).change .pop).current =
      (History.of (actions.take i)).current ∧
    ((History.of actions).change .pop).outer = (History.of (actions.take i)).outer := by
  rw [History.change, h.scopes]
  exact ⟨rfl, rfl⟩

end

/-- By induction on the number of actions: behind a closing, all is as it was after fewer of them. -/
theorem opened_of_current {actions : List (Action τ)} {i : Nat}
    (hi : (History.of actions).current = i + 1) : Opened actions i := by
  induction hlen : actions.length using Nat.strongRecOn generalizing actions i with
  | ind n ih =>
    rcases List.eq_nil_or_concat' actions with rfl | ⟨earlier, a, rfl⟩
    · cases hi
    have hlt : earlier.length < n := by simp [← hlen]
    have hearlier {j : Nat} (hj : (History.of earlier).current = j + 1) : Opened earlier j :=
      ih _ hlt hj rfl
    have hearly : earlier <+: earlier ++ [a] := List.prefix_append earlier [a]
    rw [History.of_concat] at hi
    cases a with
    | push =>
      obtain rfl : i = earlier.length := by
        rw [← History.length_of]
        exact (Nat.succ.inj hi).symm
      exact opened_push earlier
    | write name value =>
      exact (hearlier hi).extend hearly (by rw [after_concat]; rfl) (by rw [History.of_concat]; rfl)
    | read name =>
      have hread : ((History.of earlier).change (.read name)).current =
            (History.of earlier).current ∧
          ((History.of earlier).change (.read name)).outer = (History.of earlier).outer := by
        rw [History.change]
        split <;> exact ⟨rfl, rfl⟩
      refine (hearlier (hread.1.symm.trans hi)).extend hearly ?_ ?_
      · rw [after_concat, perform, outer_read]
      · rw [History.of_concat]
        exact hread.2
    | pop =>
      cases houter : (History.of earlier).outer with
      | nil =>
        have hsame : (History.of earlier).change .pop = History.of earlier := by
          rw [History.change, houter]
        rw [History.add, hsame] at hi
        have hscopes := (hearlier hi).scopes
        rw [houter] at hscopes
        cases hscopes
      | cons m scopes =>
        -- a scope with another one around it is not the root
        have hgt : m < (History.of earlier).current :=
          List.rel_of_pairwise_cons (records_after earlier).descending (by simp [houter])
        obtain ⟨j, hj⟩ := Nat.exists_eq_succ_of_ne_zero (Nat.ne_zero_of_lt hgt)
        have hopened := hearlier hj
        obtain ⟨hcurrent, hscopes⟩ := hopened.change_pop
        have htake : (earlier.take j).length < n :=
          Nat.lt_of_le_of_lt (List.length_take_le' _ _) hlt
        refine (ih _ htake (hcurrent.symm.trans hi) rfl).extend
          ((List.take_prefix j earlier).trans hearly) ?_ ?_
        · rw [hopened.after_pop]
        · rw [History.of_concat]
          exact hscopes

/-- What the current scope answers after any row of actions, and so at any point of a longer one. A
name is looked up as the value that it was given last in the innermost open scope that has defined it,
and locally as the one that it was given last in the current scope; the size is the number of
different names defined there; reading gives zero where looking up gives nothing. Closing a scope
brings back the scope before the action that opened it, with all its answers. -/
theorem after_answers (actions : List (Action τ)) :
    let s := after actions
    let h := History.of actions
    (∀ name, s.lookup? name = h.visible? name ∧ s.getLocal? name = h.latest? h.current name ∧
      s.containsLocal name = (h.latest? h.current name).isSome ∧
      (s.read name).1 = (h.visible? name).getD .zero) ∧
    s.size = (h.names h.current).dedup.length ∧
    ∀ i, h.current = i + 1 →
      actions[i]? = some .push ∧ after (actions ++ [.pop]) = after (actions.take i) := by
  intro s h
  have hs : Records h s := records_after actions
  refine ⟨fun name => ⟨hs.lookup?_eq name, hs.locals.get name, ?_, ?_⟩, hs.locals.size,
    fun i hi => ?_⟩
  · rw [← hs.locals.get, containsLocal, Std.ExtTreeMap.contains_eq_isSome_getElem?]
  · rw [read_fst, hs.lookup?_eq]
  · have hopened := opened_of_current hi
    exact ⟨hopened.push, hopened.after_pop⟩

/-- A name that is written again inside, one that is read there for the first time, and a scope that
is opened and closed before these are looked up. -/
theorem after_answers_inside :
    let actions : List (Action Nat) := [.write "x" (.number 1), .push, .read "x", .read "y",
      .write "x" (.number 2), .push, .read "z", .pop]
    (after actions).lookup? "x" = some (.number 2) ∧ (after actions).getLocal? "y" = some .zero ∧
      (after actions).size = 2 ∧
      after (actions ++ [.pop]) = after [.write "x" (.number 1)] := by
  intro actions
  obtain ⟨hnames, hsize, hpop⟩ := after_answers actions
  exact ⟨(hnames "x").1.trans rfl, (hnames "y").2.1.trans rfl, hsize.trans rfl, (hpop 1 rfl).2⟩

end Scope

end Reckon
