import DataShape.Check.Validate
import DataShape.Docs
import DataShape.Problem

/-!
# Guards

A guard checks what a function returns against a schema.  The returned value is
turned into JSON first, and what is checked is the value of that JSON.  So a
float that is not finite is checked as null.  A value that passes is returned as
it was.

A strict guard refuses every failure.  A lenient guard lets a value pass that
only has undeclared keys, and warns about each of them.
-/

namespace DataShape

/-- Types whose values can be turned into JSON. -/
class Encode (α : Type) where
  /-- The JSON of a value, or why it has none. -/
  encode : α → Except Json.Defect Json

instance : Encode Value := ⟨fun v => .ok v.toJson⟩

/-- Types of dictionary keys.  Only a key that is a text can stand in JSON. -/
class EncodeKey (κ : Type) where
  /-- The text of a key, if it is one. -/
  encodeKey : κ → Option String

instance : EncodeKey String := ⟨some⟩

instance {α β : Type} : EncodeKey (α × β) := ⟨fun _ => none⟩

/-- A finite map with keys of any type. -/
structure Mapping (κ α : Type) where
  pairs : List (κ × α)

/-- The members of a mapping, up to the first defect. -/
def encodePairs {κ α : Type} [EncodeKey κ] [Encode α] :
    List (κ × α) → Except Json.Defect (List (String × Json))
  | [] => .ok []
  | (k, a) :: rest =>
      match EncodeKey.encodeKey k with
      | none => .error .malformed
      | some key => do
          let json ← Encode.encode a
          let members ← encodePairs rest
          .ok ((key, json) :: members)

instance {κ α : Type} [EncodeKey κ] [Encode α] : Encode (Mapping κ α) :=
  ⟨fun m => (encodePairs m.pairs).map fun members => .object (Entries.ofPairs members)⟩

/-- What a guard does about failures. -/
inductive Mode where
  /-- Every failure is a problem. -/
  | strict
  /-- Undeclared keys alone are no problem. -/
  | lenient
deriving DecidableEq, Repr

/-- A check of returned values. -/
structure Guard where
  schema : Schema
  resolved : Resolved
  mode : Mode

/-- A value that passed or the problem that it has, and the events on the way. -/
abbrev Checked (α : Type) : Type := Except Problem α × List Event

namespace Guard

/-- The strict guard of a schema. -/
def ofSchema (s : Schema) : Except Problem Guard :=
  match s.resolve.result with
  | .ok resolved => .ok ⟨s, resolved, .strict⟩
  | .error fault => .error (.fault fault)

/-- The strict guard of a definition. -/
def ofDefinition (definition : Json) : Except Problem Guard :=
  match Schema.parse definition with
  | .ok s => ofSchema s
  | .error e => .error (.fault (.definition e))

/-- The same guard in a mode. -/
def withMode (g : Guard) (mode : Mode) : Guard := { g with mode }

/-- Whether a guard lets a value with these failures pass. -/
def tolerates (g : Guard) (failures : List Failure) : Bool :=
  g.mode == .lenient && failures.all fun f => f.mismatch.isUnexpectedProperty

/-- Pass a returned value through if its schema describes it. -/
def check {α : Type} [Encode α] (g : Guard) (returned : α) : Checked α :=
  match Encode.encode returned with
  | .error defect => (.error (.conversion defect), [])
  | .ok json =>
      let report := g.resolved.failures (Value.ofJson json)
      match report.result with
      | .error fault => (.error (.fault fault), report.events)
      | .ok failures =>
          if failures.isEmpty then (.ok returned, report.events)
          else if g.tolerates failures then
            (.ok returned, report.events ++ failures.map Event.tolerated)
          else (.error (.badReturnValue failures), report.events)

/-- A function whose returned values are checked. -/
def wrap {α β : Type} [Encode β] (g : Guard) (f : α → β) : α → Checked β :=
  fun a => g.check (f a)

/-- A documentation text with the schema behind it. -/
def document (g : Guard) (doc : String) : String := Docs.append doc g.schema

end Guard

end DataShape
