import DataShape.Walk.Basic

/-!
# Scripted walks

A script is a list of rules.  At each node the first rule whose conditions hold
gives the answer, and without such a rule the value is kept.  The visitor of a
script also records every node that it is called at, before it answers.
-/

namespace DataShape

/-- What a rule does at a node. -/
inductive Answer where
  | replace (value : Value)
  | abort

/-- An answer and the conditions under which it is given.  A missing condition
always holds. -/
structure Rule where
  path : Option String
  kind : Option String
  /-- The text of the schema.  It never holds where there is no schema. -/
  schema : Option String
  /-- Whether the rule is only for nodes without a schema. -/
  undeclared : Bool
  answer : Answer

/-- Whether a condition holds of a text that may be missing. -/
def holdsOf (condition : Option String) (text : Option String) : Bool :=
  match condition with
  | none => true
  | some expected => text == some expected

/-- Whether all conditions of a rule hold at a node. -/
def Rule.holds (rule : Rule) (node : Node) : Bool :=
  holdsOf rule.path (some node.path.text) &&
    holdsOf rule.kind (some node.value.kind) &&
    holdsOf rule.schema (node.schema.map Schema.text) &&
    (!rule.undeclared || node.schema.isNone)

/-- Record every node and answer by the first rule that holds. -/
def scripted (rules : List Rule) : Visitor (List Node) := fun node => do
  Run.update fun nodes => nodes ++ [node]
  match rules.find? fun rule => rule.holds node with
  | none => return .keep
  | some rule =>
      match rule.answer with
      | .replace value => return .replace value
      | .abort => Run.fail (.definition (.malformed node.path.text))

/-- The number of nodes that a rule can put into a value. -/
def Rule.size (rule : Rule) : Nat :=
  match rule.answer with
  | .replace value => value.size
  | .abort => 0

/-- The length of the longest path text that a rule asks for. -/
def Rule.reach (rule : Rule) : Nat := (rule.path.getD "").length

/-- A limit for scripted walks.  Below the longest path of a rule only the schema
and the value decide, so a way down that is longer than the number of their
pairs repeats itself and never ends. -/
def scriptLimit (table : Table) (rules : List Rule) (schema : Schema) (value : Value) : Nat :=
  let values := value.size + (rules.map Rule.size).foldr (· + ·) 0 + 1
  let schemas := 2 * (schema.size + table.weight) + 2
  (values + (rules.map Rule.reach).foldr (· + ·) 0 + 1) * schemas * values

/-- Walk a value by a script. -/
def walkScripted (table : Table) (rules : List Rule) (schema : Schema) (value : Value) :
    Run (List Node) Value :=
  walk table (scripted rules) (scriptLimit table rules schema value) schema value

end DataShape
