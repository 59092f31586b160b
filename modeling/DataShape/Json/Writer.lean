import DataShape.Json.Basic
import DataShape.Text.Hex

/-!
# JSON text

`compact` writes a tree without any blank, and `pretty` writes each item and
each member on a line of its own, two spaces deeper than the brackets around it.
Empty brackets stay together.

Inside a quoted text only the quote, the backslash and the control characters
below U+0020 are escaped.  So JSON text never holds a raw line feed or carriage
return except where `pretty` breaks a line.
-/

namespace DataShape.Json

/-- A character as it stands inside quotes. -/
def escape (c : Char) : List Char :=
  if c = '"' then ['\\', '"']
  else if c = '\\' then ['\\', '\\']
  else if c = '\n' then ['\\', 'n']
  else if c = '\r' then ['\\', 'r']
  else if c = '\t' then ['\\', 't']
  else if c = '\x08' then ['\\', 'b']
  else if c = '\x0c' then ['\\', 'f']
  else if c.toNat < 0x20 then '\\' :: 'u' :: Text.lowerHex 4 c.toNat
  else [c]

/-- A text in quotes. -/
def quote (s : String) : String :=
  "\"" ++ String.ofList (s.toList.flatMap escape) ++ "\""

/-! ## On one line -/

mutual

/-- The text of a tree without blanks. -/
def compact : Json → String
  | .null => "null"
  | .bool true => "true"
  | .bool false => "false"
  | .number n => n.text .json
  | .string s => quote s
  | .array items => "[" ++ ",".intercalate (compactItems items) ++ "]"
  | .object members => "\x7b" ++ ",".intercalate (compactMembers members) ++ "\x7d"

/-- The texts of the items of an array. -/
def compactItems : List Json → List String
  | [] => []
  | item :: rest => compact item :: compactItems rest

/-- The texts of the members of an object. -/
def compactMembers : List (String × Json) → List String
  | [] => []
  | (key, item) :: rest => (quote key ++ ":" ++ compact item) :: compactMembers rest

end

/-! ## On many lines -/

/-- The indentation at a depth. -/
def margin (depth : Nat) : String := String.ofList (List.replicate (2 * depth) ' ')

/-- Brackets around parts that have a line each. -/
def bracket (opening closing : String) (depth : Nat) (parts : List String) : String :=
  if parts.isEmpty then opening ++ closing
  else
    opening ++ "\n" ++ ",\n".intercalate (parts.map (margin (depth + 1) ++ ·)) ++ "\n" ++
      margin depth ++ closing

mutual

/-- The text of a tree whose brackets stand at a depth. -/
def prettyAt (depth : Nat) : Json → String
  | .array items => bracket "[" "]" depth (prettyItems (depth + 1) items)
  | .object members => bracket "\x7b" "\x7d" depth (prettyMembers (depth + 1) members)
  | .null => "null"
  | .bool true => "true"
  | .bool false => "false"
  | .number n => n.text .json
  | .string s => quote s

/-- The texts of the items of an array, each at a depth. -/
def prettyItems (depth : Nat) : List Json → List String
  | [] => []
  | item :: rest => prettyAt depth item :: prettyItems depth rest

/-- The texts of the members of an object, each at a depth. -/
def prettyMembers (depth : Nat) : List (String × Json) → List String
  | [] => []
  | (key, item) :: rest =>
      (quote key ++ ": " ++ prettyAt depth item) :: prettyMembers depth rest

end

/-- The text of a tree on many lines. -/
def pretty (json : Json) : String := prettyAt 0 json

example : quote "a\"\x01é\n" = "\"a\\\"\\u0001é\\n\"" := by decide +kernel
example : compact (.object [("a", .array [.null, .bool true]), ("b", .array [])])
    = "\x7b\"a\":[null,true],\"b\":[]\x7d" := by decide +kernel
example : pretty (.object [("a", .array [.null]), ("b", .object [])])
    = "\x7b\n  \"a\": [\n    null\n  ],\n  \"b\": \x7b\x7d\n\x7d" := by decide +kernel

end DataShape.Json
