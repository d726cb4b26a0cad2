import Reckon.Expr.Serial
import Reckon.Parse.Cursor
import Reckon.Value

/-!
# Line maps

`mapLines f` puts everything that stood on line `l` on line `f l`, in tokens, trees, values and
errors. What the parser and the evaluator do commutes with it; this module has the maps, and the
numbering of function literals, which does not look at lines.
-/

set_option autoImplicit false

namespace Reckon

variable {τ : Type} (f : Nat → Nat)

def Located.mapLines (t : Located) : Located := ⟨t.token, f t.line⟩

mutual

def Expr.mapLines : Expr τ → Expr τ
  | .number x line => .number x (f line)
  | .var name line => .var name (f line)
  | .arithmetic op left right line => .arithmetic op left.mapLines right.mapLines (f line)
  | .assign name value line => .assign name value.mapLines (f line)
  | .function tag params body line => .function tag params (mapLinesAll body) (f line)
  | .call name arguments line => .call name (mapLinesAll arguments) (f line)

def mapLinesAll : List (Expr τ) → List (Expr τ)
  | [] => []
  | e :: es => e.mapLines :: mapLinesAll es

end

def Function.mapLines (g : Function τ) : Function τ :=
  ⟨g.tag, g.params, mapLinesAll f g.body, f g.line⟩

def Statement.mapLines (s : Statement τ) : Statement τ := ⟨mapLinesAll f s.expressions, f s.line⟩

def Value.mapLines : Value τ → Value τ
  | .number x => .number x
  | .function g => .function (g.mapLines f)

def SyntaxError.mapLines : SyntaxError → SyntaxError
  | unknownCharacter character line => unknownCharacter character (f line)
  | expected wanted found line => expected wanted found (f line)
  | unexpectedToken token line => unexpectedToken token (f line)
  | unexpectedEnd line => unexpectedEnd (f line)
  | assignmentTarget line => assignmentTarget (f line)
  | nestingTooDeep limit line => nestingTooDeep limit (f line)

def RuntimeError.mapLines : RuntimeError → RuntimeError
  | notCallable name line => notCallable name (f line)
  | argumentCount expected found line => argumentCount expected found (f line)
  | emptyBody line => emptyBody (f line)
  | callDepth limit line => callDepth limit (f line)
  | typeMismatch details line => typeMismatch details (f line)
  | divisionByZero line => divisionByZero (f line)

def Error.mapLines : Error → Error
  | syntaxError e => syntaxError (e.mapLines f)
  | runtimeError e => runtimeError (e.mapLines f)

def Cursor.mapLines (c : Cursor) : Cursor := { c with rest := c.rest.map (Located.mapLines f) }

def Bounds.mapLines (b : Bounds) : Bounds := { b with endLine := f b.endLine }

/-- An outcome with its result under `g` and its error moved. -/
def moved {α β : Type} (g : α → β) : Except SyntaxError α → Except SyntaxError β
  | .ok a => .ok (g a)
  | .error e => .error (e.mapLines f)

theorem mapLinesAll_eq (es : List (Expr τ)) : mapLinesAll f es = es.map (Expr.mapLines f) := by
  induction es with
  | nil => rfl
  | cons e es ih => rw [mapLinesAll, ih, List.map_cons]

theorem mapLinesAll_append (es fs : List (Expr τ)) :
    mapLinesAll f (es ++ fs) = mapLinesAll f es ++ mapLinesAll f fs := by
  simp only [mapLinesAll_eq, List.map_append]

theorem flatMap_mapLines (program : List (Statement τ)) :
    (program.map (Statement.mapLines f)).flatMap Statement.expressions =
      mapLinesAll f (program.flatMap Statement.expressions) := by
  induction program with
  | nil => rfl
  | cons s program ih =>
    rw [List.map_cons, List.flatMap_cons, List.flatMap_cons, ih, mapLinesAll_append]
    rfl

/-! ## The map that moves nothing -/

mutual

@[simp] theorem Expr.mapLines_id : ∀ e : Expr τ, e.mapLines id = e
  | .number .. | .var .. => rfl
  | .arithmetic op left right line => by
    rw [Expr.mapLines, left.mapLines_id, right.mapLines_id, id]
  | .assign name value line => by rw [Expr.mapLines, value.mapLines_id, id]
  | .function tag params body line => by rw [Expr.mapLines, mapLinesAll_id body, id]
  | .call name arguments line => by rw [Expr.mapLines, mapLinesAll_id arguments, id]

@[simp] theorem mapLinesAll_id : ∀ es : List (Expr τ), mapLinesAll id es = es
  | [] => rfl
  | e :: es => by rw [mapLinesAll, e.mapLines_id, mapLinesAll_id es]

end

@[simp] theorem Function.mapLines_id (g : Function τ) : g.mapLines id = g := by
  rw [Function.mapLines, mapLinesAll_id, id]

@[simp] theorem Statement.mapLines_id (s : Statement τ) : s.mapLines id = s := by
  rw [Statement.mapLines, mapLinesAll_id, id]

@[simp] theorem Value.mapLines_id (v : Value τ) : v.mapLines id = v := by
  cases v with
  | number x => rfl
  | function g => rw [Value.mapLines, Function.mapLines_id]

@[simp] theorem SyntaxError.mapLines_id (e : SyntaxError) : e.mapLines id = e := by
  cases e <;> rfl

@[simp] theorem RuntimeError.mapLines_id (e : RuntimeError) : e.mapLines id = e := by
  cases e <;> rfl

/-! ## Numbering -/

mutual

theorem Expr.serial_mapLines : ∀ e : Expr τ,
    (e.mapLines f).serial = Expr.mapLines f <$> e.serial
  | .number .. | .var .. => rfl
  | .arithmetic op left right line => by
    rw [Expr.mapLines, Expr.serial, Expr.serial, left.serial_mapLines, right.serial_mapLines]
    simp only [map_bind, bind_map_left, map_pure, Expr.mapLines]
  | .assign name value line => by
    rw [Expr.mapLines, Expr.serial, Expr.serial, value.serial_mapLines]
    simp only [map_bind, bind_map_left, map_pure, Expr.mapLines]
  | .function tag params body line => by
    rw [Expr.mapLines, Expr.serial, Expr.serial, serialAll_mapLinesAll body]
    simp only [map_bind, bind_map_left, map_pure, Expr.mapLines]
  | .call name arguments line => by
    rw [Expr.mapLines, Expr.serial, Expr.serial, serialAll_mapLinesAll arguments]
    simp only [map_bind, bind_map_left, map_pure, Expr.mapLines]

theorem serialAll_mapLinesAll : ∀ es : List (Expr τ),
    serialAll (mapLinesAll f es) = mapLinesAll f <$> serialAll es
  | [] => rfl
  | e :: es => by
    rw [mapLinesAll, serialAll, serialAll, e.serial_mapLines, serialAll_mapLinesAll es]
    simp only [map_bind, bind_map_left, map_pure, mapLinesAll]

end

theorem Statement.serial_mapLines (s : Statement τ) :
    (s.mapLines f).serial = Statement.mapLines f <$> s.serial := by
  rw [Statement.serial, Statement.serial, Statement.mapLines, serialAll_mapLinesAll]
  simp only [map_bind, bind_map_left, map_pure, Statement.mapLines]

theorem mapM_serial_mapLines (program : List (Statement τ)) :
    (program.map (Statement.mapLines f)).mapM Statement.serial =
      List.map (Statement.mapLines f) <$> program.mapM Statement.serial := by
  induction program with
  | nil => rfl
  | cons s program ih =>
    rw [List.map_cons, List.mapM_cons, List.mapM_cons, ih, s.serial_mapLines]
    simp only [map_bind, bind_map_left, map_pure, List.map_cons]

end Reckon
