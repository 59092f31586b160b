import DataShape.Walk.Basic

/-!
# Validation

The validator is a visitor that collects the failures of a walk.  At each node
it looks at this one value and never at its parts.  A choice and a literal judge
the value as a whole.  Everything else refuses null, nullable primitives apart,
before it looks at the kind.

A choice is met if the value has no failure under one of the alternatives.  Each
alternative gets a walk of its own from a fresh root.  Undeclared keys are
reported at their object, so a node without a schema has no failure.
-/

namespace DataShape

/-! ## Mismatches at one node -/

/-- The positions from `i` to `n` that a tuple asks for. -/
def missingIndices (i n : Nat) : List Mismatch := (List.range' i (n - i)).map .missingIndex

/-- The positions from `n` to `i` that a tuple does not have. -/
def unexpectedIndices (n i : Nat) : List Mismatch :=
  (List.range' n (i - n)).map .unexpectedIndex

/-- The required keys that a dictionary lacks, in the order of their declaration. -/
def missingProperties (fields : List (Field Schema)) (entries : Entries Value) : List Mismatch :=
  fields.filterMap fun field =>
    if field.optional || entries.has field.name then none
    else some (.missingProperty field.name)

/-- The keys that nothing describes, in the order of the dictionary. -/
def unexpectedProperties (fields : List (Field Schema)) (wildcard : Option Schema)
    (entries : Entries Value) : List Mismatch :=
  match wildcard with
  | some _ => []
  | none => entries.filterMap fun (key, _) =>
      if (Field.find? key fields).isSome then none else some (.unexpectedProperty key)

/-- How a value itself differs from a schema other than a choice. -/
def mismatches : Schema → Value → List Mismatch
  | .choice _, _ => []
  | .literal expected, value =>
      if value.same expected then [] else [.literalMismatch expected.plain value.plain]
  | .named _ _, _ => []
  | .reference _, _ => []
  | .primitive p, .null => if p.nullable then [] else [.unexpectedNull]
  | _, .null => [.unexpectedNull]
  | .primitive p, value =>
      if p.kind.accepts value then [] else [.typeMismatch p.kind.name value.kind]
  | .list _, .list _ => []
  | .tuple elements, .list items =>
      missingIndices items.length elements.length ++
        unexpectedIndices elements.length items.length
  | .list _, value => [.typeMismatch "list" value.kind]
  | .tuple _, value => [.typeMismatch "list" value.kind]
  | .object fields wildcard, .dict entries =>
      missingProperties fields entries ++ unexpectedProperties fields wildcard entries
  | .object _ _, value => [.typeMismatch "dict" value.kind]

/-! ## The validator -/

/-- Whether one of the alternatives is met, tried from left to right. -/
def anyMet (judge : Schema → Value → Report Bool) (value : Value) : List Schema → Report Bool
  | [] => pure false
  | alternative :: rest => do
      if ← judge alternative value then return true
      anyMet judge value rest

/-- Add mismatches at a path to the failures so far. -/
def record (path : Path) (found : List Mismatch) : Run (List Failure) Unit :=
  Run.update fun failures => failures ++ found.map (Failure.mk path)

/-- Collect the failures of each node.  `judge` tells whether a value meets an
alternative of a choice. -/
def validator (judge : Schema → Value → Report Bool) : Visitor (List Failure) := fun node => do
  match node.schema with
  | none => return .keep
  | some (.choice alternatives) => do
      let met ← Run.ofReport (anyMet judge node.value alternatives)
      if !met then
        record node.path [.noneOfChoices node.value.text (renderChoices alternatives)]
      return .keep
  | some schema => do
      record node.path (mismatches schema node.value)
      return .keep

/-- Whether a value has no failure under a schema.  The limit also bounds how
deep choices nest. -/
def satisfies (table : Table) : (limit : Nat) → Schema → Value → Report Bool
  | 0, _, _ => .ofExcept (.error .limit)
  | limit + 1, schema, value =>
      (fun (_, failures) => failures.isEmpty) <$>
        (walk table (validator (satisfies table limit)) (limit + 1) schema value).start []

/-- Collect the failures of a value under a schema of a table. -/
def collectFailures (table : Table) (limit : Nat) (schema : Schema) (value : Value) :
    Run (List Failure) Value :=
  walk table (validator (satisfies table limit)) limit schema value

namespace Resolved

/-- Everything that is wrong with a value, in the order of the walk. -/
def failures (r : Resolved) (value : Value) : Report (List Failure) :=
  Prod.snd <$> (collectFailures r.table (walkLimit r.table r.root value) r.root value).start []

/-- The messages of the failures. -/
def validate (r : Resolved) (value : Value) : Report (List String) :=
  List.map Failure.message <$> r.failures value

/-- Whether a value has no failure. -/
def isValid (r : Resolved) (value : Value) : Report Bool :=
  List.isEmpty <$> r.failures value

end Resolved

namespace Schema

/-- Everything that is wrong with a value. -/
def failures (s : Schema) (value : Value) : Report (List Failure) := do
  (← s.resolve).failures value

/-- The messages of the failures. -/
def validate (s : Schema) (value : Value) : Report (List String) := do
  (← s.resolve).validate value

/-- Whether a value has no failure. -/
def isValid (s : Schema) (value : Value) : Report Bool := do
  (← s.resolve).isValid value

end Schema

end DataShape
