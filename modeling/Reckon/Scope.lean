import Std.Data.ExtTreeMap
import Reckon.Value

/-!
# Scopes

A scope is a table of bindings inside the tables of the calls around it. Names are looked up from the
innermost table outwards; only the innermost table ever changes, and reading a name that is bound
nowhere binds it to zero there.
-/

set_option autoImplicit false

namespace Reckon

/-- Bindings, in the order of their names. -/
abbrev Table (τ : Type) := Std.ExtTreeMap String (Value τ)

structure Scope (τ : Type) where
  locals : Table τ
  outer : List (Table τ)

namespace Scope

variable {τ : Type}

/-- A scope without bindings and without a scope around it. -/
def empty : Scope τ := ⟨∅, []⟩

/-- A new scope inside `s`. -/
def push (s : Scope τ) : Scope τ := ⟨∅, s.locals :: s.outer⟩

/-- The scope around `s`, if there is one. -/
def parent? (s : Scope τ) : Option (Scope τ) :=
  match s.outer with
  | [] => none
  | table :: tables => some ⟨table, tables⟩

/-- The scope around `s`; a scope that has none stays as it is. -/
def pop (s : Scope τ) : Scope τ := s.parent?.getD s

/-- The scope that many levels further out. -/
def ancestor? (s : Scope τ) : Nat → Option (Scope τ)
  | 0 => some s
  | n + 1 => s.parent?.bind fun p => p.ancestor? n

/-- The value of a name in the innermost table. -/
def getLocal? (s : Scope τ) (name : String) : Option (Value τ) := s.locals[name]?

def containsLocal (s : Scope τ) (name : String) : Bool := s.locals.contains name

/-- The number of names in the innermost table. -/
def size (s : Scope τ) : Nat := s.locals.size

def isEmpty (s : Scope τ) : Bool := s.locals.isEmpty

/-- The bindings of the innermost table, in the order of their names. -/
def bindings (s : Scope τ) : List (String × Value τ) := s.locals.toList

/-- The value of a name in the innermost table that binds it. -/
def lookup? (s : Scope τ) (name : String) : Option (Value τ) :=
  (s.locals :: s.outer).findSome? fun table => table[name]?

/-- Binds a name in the innermost table. -/
def write (s : Scope τ) (name : String) (value : Value τ) : Scope τ :=
  { s with locals := s.locals.insert name value }

/-- The value of a name, which is bound to zero if it is bound nowhere. -/
def read (s : Scope τ) (name : String) : Value τ × Scope τ :=
  match s.lookup? name with
  | some value => (value, s)
  | none => (.zero, s.write name .zero)

/-- Binds names in order, so that the last value of a repeated name stays. -/
def writeAll (s : Scope τ) (pairs : List (String × Value τ)) : Scope τ :=
  pairs.foldl (fun s pair => s.write pair.1 pair.2) s

/-! ## What the operations do to look-ups -/

@[simp] theorem parent?_push (s : Scope τ) : s.push.parent? = some s := rfl

@[simp] theorem pop_push (s : Scope τ) : s.push.pop = s := rfl

@[simp] theorem lookup?_empty (name : String) : (empty : Scope τ).lookup? name = none := by
  simp [lookup?, empty]

@[simp] theorem getLocal?_push (s : Scope τ) (name : String) : s.push.getLocal? name = none := by
  simp [getLocal?, push]

/-- An empty table hides nothing. -/
@[simp] theorem lookup?_push (s : Scope τ) (name : String) :
    s.push.lookup? name = s.lookup? name := by
  simp [lookup?, push]

theorem getLocal?_write (s : Scope τ) (name other : String) (value : Value τ) :
    (s.write name value).getLocal? other =
      if name = other then some value else s.getLocal? other := by
  simp [getLocal?, write, Std.ExtTreeMap.getElem?_insert]

theorem lookup?_write (s : Scope τ) (name other : String) (value : Value τ) :
    (s.write name value).lookup? other =
      if name = other then some value else s.lookup? other := by
  by_cases h : name = other <;>
    simp [lookup?, write, Std.ExtTreeMap.getElem?_insert, List.findSome?_cons, h]

@[simp] theorem outer_write (s : Scope τ) (name : String) (value : Value τ) :
    (s.write name value).outer = s.outer := rfl

theorem outer_writeAll (s : Scope τ) (pairs : List (String × Value τ)) :
    (s.writeAll pairs).outer = s.outer := by
  unfold writeAll
  induction pairs generalizing s with
  | nil => rfl
  | cons pair pairs ih => rw [List.foldl_cons, ih, outer_write]

theorem read_fst (s : Scope τ) (name : String) :
    (s.read name).1 = (s.lookup? name).getD .zero := by
  unfold read
  cases s.lookup? name <;> rfl

/-- Reading changes only whether the name itself is bound. -/
theorem lookup?_read (s : Scope τ) (name other : String) :
    (s.read name).2.lookup? other =
      if name = other then some ((s.lookup? other).getD .zero) else s.lookup? other := by
  by_cases hn : name = other
  · subst hn
    cases h : s.lookup? name <;> simp [read, h, lookup?_write]
  · cases h : s.lookup? name <;> simp [read, h, lookup?_write, hn]

@[simp] theorem outer_read (s : Scope τ) (name : String) : (s.read name).2.outer = s.outer := by
  unfold read
  cases s.lookup? name <;> rfl

end Scope

end Reckon
