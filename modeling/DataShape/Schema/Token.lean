import DataShape.Schema.Basic
import DataShape.Schema.Error
import DataShape.Text.Blank

/-!
# Tokens with modifiers

A token of a definition is a name with modifier words in front of it, such as
`nullable int` or `optional key`.  `splitModifiers` takes the modifiers off.  A
word counts as a modifier if it is one of the possible ones, has not been taken
before, and is followed by more than blanks.  So a key that is literally called
`optional` keeps its name, and no modifier is taken twice.

Blanks in front of the name and between the words are dropped.  Blanks within
and behind the name stay.
-/

namespace DataShape.Token

/-- The word that makes a primitive nullable. -/
def nullableWord : String := "nullable"

/-- The word that makes a key optional. -/
def optionalWord : String := "optional"

/-- Take at most `count` modifiers off a text that starts with no blank. -/
def takeModifiers : (count : Nat) → (possible : List String) → List Char →
    List String × List Char
  | 0, _, cs => ([], cs)
  | count + 1, possible, cs =>
      match Text.cut? cs with
      | none => ([], cs)
      | some (word, tail) =>
          let word := String.ofList word
          let name := Text.trimStart tail
          if word ∈ possible ∧ name ≠ [] then
            let (taken, rest) := takeModifiers count (possible.filter (· ≠ word)) name
            (word :: taken, rest)
          else ([], cs)

/-- The modifiers of a token in order, and its name.  Each possible word can be
taken once, so their number is a bound. -/
def splitModifiers (possible : List String) (token : String) : List String × String :=
  let (taken, rest) := takeModifiers possible.length possible (Text.trimStart token.toList)
  (taken, String.ofList rest)

/-- Whether the key of an object is optional, and its name. -/
def readKey (key : String) : Bool × String :=
  let (taken, name) := splitModifiers [optionalWord] key
  (taken.contains optionalWord, name)

/-- The primitive that a token stands for. -/
def readPrimitive (token : String) : Except DefinitionError Primitive :=
  let (taken, name) := splitModifiers [nullableWord] token
  match Kind.ofName? name with
  | some kind => .ok ⟨kind, taken.contains nullableWord⟩
  | none => .error (.unknownPrimitive token)

/-- The token of a primitive. -/
def ofPrimitive (p : Primitive) : String :=
  if p.nullable then nullableWord ++ " " ++ p.kind.name else p.kind.name

/-- The key of a field. -/
def ofKey (optional : Bool) (name : String) : String :=
  if optional then optionalWord ++ " " ++ name else name

example : splitModifiers ["optional"] " optional \tfoo bar" = (["optional"], "foo bar") := by
  decide +kernel
example : splitModifiers ["optional"] "optional" = ([], "optional") := by decide +kernel
example : splitModifiers ["optional"] "optional optional x" = (["optional"], "optional x") := by
  decide +kernel

end DataShape.Token
