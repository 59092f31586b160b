import DataShape.Text.Blank

/-!
# Lines and indentation

A line ends at a line feed, or at a carriage return directly before one.  The
end of the text also ends a line, unless that line is empty.  A carriage return
anywhere else belongs to its line.

`indent` puts a number of spaces before every line and joins the lines with
line feeds, so it drops a final line end.  `margin` is the smallest indentation
found among the indented lines.  Only U+0020 counts as indentation, while any
blank character makes no text.
-/

namespace DataShape.Text

/-- Put a character at the start of the first line. -/
def consLine (c : Char) : List (List Char) → List (List Char)
  | [] => [[c]]
  | line :: rest => (c :: line) :: rest

/-- The lines of a text, without their ends. -/
def lines : List Char → List (List Char)
  | [] => []
  | '\n' :: rest => [] :: lines rest
  | '\r' :: '\n' :: rest => [] :: lines rest
  | c :: rest => consLine c (lines rest)

/-- Lines joined with line feeds between them. -/
def unlines : List (List Char) → List Char
  | [] => []
  | [line] => line
  | line :: rest => line ++ '\n' :: unlines rest

/-- Put `level` spaces before each line of a text. -/
def indent (level : Nat) (text : String) : String :=
  String.ofList (unlines ((lines text.toList).map (List.replicate level ' ' ++ ·)))

/-- The number of spaces a line starts with. -/
def leadingSpaces (line : List Char) : Nat := (line.takeWhile (· == ' ')).length

/-- Whether a line holds a character that is not blank. -/
def hasText (line : List Char) : Bool := !(trim line).isEmpty

/-- The smallest number of a list, or zero if the list is empty. -/
def smallest : List Nat → Nat
  | [] => 0
  | n :: rest => rest.foldl min n

/-- The smallest indentation among the indented lines that hold text, or zero if
there is none.  Lines without indentation do not count, since the first line of
a documentation text often starts right behind its opening mark. -/
def margin (text : String) : Nat :=
  smallest ((((lines text.toList).filter hasText).map leadingSpaces).filter (· != 0))

example : lines "a\r\nb\rc\n\nd\r".toList = ["a", "b\rc", "", "d\r"].map String.toList := by
  decide
example : indent 2 "a\n\nb\n" = "  a\n  \n  b" := by decide
example : margin "a\n    b\n  c\n \t\n" = 2 := by decide

end DataShape.Text
