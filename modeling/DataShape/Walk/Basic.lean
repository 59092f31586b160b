import DataShape.Names.Resolved

/-!
# Walks

A walk pairs the parts of a schema with the parts of a value.  It hands every
pair to a visitor, parents before children, and rebuilds the value from the
visitor's answers.  It judges nothing itself.  A value of the wrong shape is
visited, and nothing below it is.

References and named types are replaced before the visit.  Below a list every
item is visited in order, below a tuple the items that have a position, and
below an object every entry in the order of the value.  An entry that nothing
describes is visited without a schema, and nothing below it is visited.  Choices
and literals are visited as a whole.

A replaced value takes the place of the old one at once, so the walk goes on
below the new value.  Since a visitor may answer with ever larger values, and a
table that was not checked may lead back to itself, a walk has a limit.  It is
the number of steps down and through named types that may follow each other.
-/

namespace DataShape

/-- What holds for a node besides its schema. -/
structure Options where
  /-- The schema is a nullable primitive. -/
  nullable : Bool
  /-- The value is under an optional key. -/
  optional : Bool
deriving DecidableEq, Repr, Inhabited

/-- A part of a value with what describes it. -/
structure Node where
  /-- The way to the part. -/
  path : Path
  /-- Its schema, neither a reference nor a named type, or `none` if nothing
  describes the part. -/
  schema : Option Schema
  /-- The part. -/
  value : Value
  /-- What else holds for it. -/
  options : Options

/-- What to do with a visited value. -/
inductive Visit where
  /-- Keep the value. -/
  | keep
  /-- Put another value in its place. -/
  | replace (value : Value)

/-- The value after a visit. -/
def Visit.on (before : Value) : Visit → Value
  | .keep => before
  | .replace after => after

/-- What is done at each node.  A visitor has a state and may abort the walk. -/
abbrev Visitor (σ : Type) : Type := Node → Run σ Visit

variable {σ : Type}

/-! ## Below a node -/

/-- Rebuild the items of a list, from the position `i` on. -/
def rebuildItems (step : Path → Value → Run σ Value) (path : Path) (i : Nat) :
    List Value → Run σ (List Value)
  | [] => pure []
  | item :: rest => do
      let item ← step (path.index i) item
      (item :: ·) <$> rebuildItems step path (i + 1) rest

/-- Rebuild the items that have an element, from the position `i` on.  The items
behind the last element stay as they are. -/
def rebuildTuple (step : Path → Schema → Value → Run σ Value) (path : Path) (i : Nat) :
    List Schema → List Value → Run σ (List Value)
  | _, [] => pure []
  | [], items => pure items
  | element :: elements, item :: rest => do
      let item ← step (path.index i) element item
      (item :: ·) <$> rebuildTuple step path (i + 1) elements rest

/-- Rebuild the values of a dictionary. -/
def rebuildEntries (step : String → Path → Value → Run σ Value) (path : Path) :
    List (String × Value) → Run σ (List (String × Value))
  | [] => pure []
  | (key, value) :: rest => do
      let value ← step key (path.key key) value
      ((key, value) :: ·) <$> rebuildEntries step path rest

/-- Visit a value that nothing describes. -/
def visitUndeclared (visit : Visitor σ) (path : Path) (value : Value) : Run σ Value := do
  Run.emit (.visitingUndeclared path)
  Visit.on value <$> visit ⟨path, none, value, ⟨false, false⟩⟩

/-- Visit the value under a key of an object. -/
def visitEntry (visit : Visitor σ) (step : Path → Bool → Schema → Value → Run σ Value)
    (fields : List (Field Schema)) (wildcard : Option Schema) (key : String) (path : Path)
    (value : Value) : Run σ Value :=
  match Field.find? key fields, wildcard with
  | some field, _ => step path field.optional field.schema value
  | none, some schema => step path false schema value
  | none, none => visitUndeclared visit path value

/-- Rebuild what is below a visited value. -/
def descend (visit : Visitor σ) (step : Path → Bool → Schema → Value → Run σ Value)
    (path : Path) : Schema → Value → Run σ Value
  | .list element, .list items =>
      .list <$> rebuildItems (fun path => step path false element) path 0 items
  | .tuple elements, .list items =>
      .list <$> rebuildTuple (fun path => step path false) path 0 elements items
  | .object fields wildcard, .dict entries =>
      .dict <$> rebuildEntries (visitEntry visit step fields wildcard) path entries
  | _, value => pure value

/-! ## The walk -/

/-- Visit a value against a schema and rebuild it.  `optional` tells whether the
value is under an optional key. -/
def walkAt (table : Table) (visit : Visitor σ) :
    (limit : Nat) → Path → (optional : Bool) → Schema → Value → Run σ Value
  | 0, _, _, _, _ => Run.fail .limit
  | limit + 1, path, optional, schema, value => do
      let target ← Run.ofDefinition (table.resolve schema)
      match target with
      | .named _ body => walkAt table visit limit path optional body value
      | target => do
          Run.emit (.visiting path target)
          let answer ← visit ⟨path, some target, value, ⟨target.nullable, optional⟩⟩
          descend visit (walkAt table visit limit) path target (answer.on value)

/-- Walk a value against a schema from the root. -/
def walk (table : Table) (visit : Visitor σ) (limit : Nat) (schema : Schema) (value : Value) :
    Run σ Value :=
  walkAt table visit limit .root false schema value

/-- A limit for walks whose visitor never answers with a larger value.  Every
step down makes the value smaller, and what lies between two such steps is a
chain of named types and choices, each met once. -/
def walkLimit (table : Table) (schema : Schema) (value : Value) : Nat :=
  (value.size + 1) * (2 * (schema.size + table.weight) + 2)

end DataShape
