import DataShape.Failure

/-!
# Events

An event is a step that an observer may want to follow.  It holds what it is
about, and its text is made only on demand.
-/

namespace DataShape

/-- How much an event matters. -/
inductive Level where
  | trace
  | debug
  | warn
deriving DecidableEq, Repr

/-- The name of a level. -/
def Level.name : Level → String
  | .trace => "TRACE"
  | .debug => "DEBUG"
  | .warn => "WARN"

/-- A step worth following. -/
inductive Event where
  /-- A value is visited against a schema. -/
  | visiting (path : Path) (schema : Schema)
  /-- A value is visited that no schema describes. -/
  | visitingUndeclared (path : Path)
  /-- A value is replaced by a converted one. -/
  | coerced (path : Path) (before after : Value)
  /-- A name gets its body. -/
  | registered (name : String)
  /-- The names of a trail lead back to one of them. -/
  | cycleRejected (trail : List String) (back : String)
  /-- A failure is let pass. -/
  | tolerated (failure : Failure)

namespace Event

/-- How much an event matters. -/
def level : Event → Level
  | .visiting _ _ => .trace
  | .visitingUndeclared _ => .trace
  | .coerced _ _ _ => .debug
  | .registered _ => .debug
  | .cycleRejected _ _ => .debug
  | .tolerated _ => .warn

/-- A path between backticks. -/
def ticked (path : Path) : String := "`" ++ path.text ++ "`"

/-- The text of an event. -/
def text : Event → String
  | .visiting path schema => "Visiting " ++ ticked path ++ " against " ++ schema.text
  | .visitingUndeclared path => "Visiting " ++ ticked path ++ " without a datatype"
  | .coerced path before after =>
      "Coerced " ++ ticked path ++ " from " ++ before.text ++ " to " ++ after.text
  | .registered name => "Registered named type \"" ++ name ++ "\""
  | .cycleRejected trail back =>
      "Rejected reference cycle " ++ " -> ".intercalate trail ++ " -> " ++ back
  | .tolerated failure => "Return value: " ++ failure.message

end Event

end DataShape
