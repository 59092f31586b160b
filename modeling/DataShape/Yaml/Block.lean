import DataShape.Json.Basic
import DataShape.Yaml.Scalar

/-!
# YAML blocks

A tree is written in block style.  Each item of a sequence stands behind a dash
and each member of a mapping on a line of its own.  What is inside stands two
columns deeper.  A sequence that is the value of a key is the exception: it
starts at the column of the key.  Empty sequences and mappings are written as
brackets.

A key stands on one line with the colon behind it if it has no line break and
takes at most 128 bytes.  Any other key stands behind a question mark, and its
value behind a colon on the next line.
-/

namespace DataShape.Yaml

/-- The line of a key, without its end, if the key may stand in front of a colon. -/
def simpleKey? (key : String) : Option String :=
  if key.toList.any isBreak || 128 < key.utf8ByteSize then none
  else some (String.ofList ((textLine 0 key).toList.dropLast))

/-- The start of a line at a column. -/
def column (n : Nat) : String := String.ofList (spaces n)

/-- Where a tree is written. -/
inductive Place where
  /-- At a column, behind nothing or behind a mark. -/
  | entry (column : Nat)
  /-- Behind a key at a column and its colon. -/
  | value (column : Nat)

namespace Place

/-- What stands in front of a scalar. -/
def lead : Place → String
  | .entry _ => ""
  | .value _ => " "

/-- The column of the further lines of a scalar. -/
def scalarColumn : Place → Nat
  | .entry n => n
  | .value n => n + 2

/-- The column of the dashes of a sequence. -/
def sequenceColumn : Place → Nat
  | .entry n => n
  | .value n => n

/-- The column of the keys of a mapping. -/
def mappingColumn : Place → Nat
  | .entry n => n
  | .value n => n + 2

/-- What stands in front of a sequence or mapping that starts at a column. -/
def opening (n : Nat) : Place → String
  | .entry _ => ""
  | .value _ => "\n" ++ column n

end Place

/-- The start of a member at a column, and the place of its value. -/
def openMember (n : Nat) (key : String) : String × Place :=
  match simpleKey? key with
  | some line => (line ++ ":", .value n)
  | none => ("? " ++ textLine (n + 2) key ++ column n ++ ": ", .entry (n + 2))

mutual

/-- The lines of a tree at a place. -/
def node (place : Place) : Json → String
  | .null => place.lead ++ "null\n"
  | .bool true => place.lead ++ "true\n"
  | .bool false => place.lead ++ "false\n"
  | .number x => place.lead ++ x.text .yaml ++ "\n"
  | .string s => place.lead ++ textLine place.scalarColumn s
  | .array [] => place.lead ++ "[]\n"
  | .object [] => place.lead ++ "\x7b\x7d\n"
  | .array items =>
      let n := place.sequenceColumn
      place.opening n ++ (column n).intercalate (itemLines n items)
  | .object members =>
      let n := place.mappingColumn
      place.opening n ++ (column n).intercalate (memberLines n members)

/-- The lines of each item of a sequence at a column. -/
def itemLines (n : Nat) : List Json → List String
  | [] => []
  | item :: rest => ("- " ++ node (.entry (n + 2)) item) :: itemLines n rest

/-- The lines of each member of a mapping at a column. -/
def memberLines (n : Nat) : List (String × Json) → List String
  | [] => []
  | (key, item) :: rest =>
      ((openMember n key).1 ++ node (openMember n key).2 item) :: memberLines n rest

end

/-- The YAML text of a tree. -/
def document : Json → String
  | .string s => textLine 2 s
  | json => node (.entry 0) json

end DataShape.Yaml
