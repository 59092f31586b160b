import DataShape.Schema.Definition
import DataShape.Text.Lines

/-!
# Documentation texts

A schema is documented as a heading and its definition, four spaces deeper.  The
definition stands on one line if it fits into the width, and else on many.

`append` puts this behind a documentation text, a blank line in between, and as
deep as the text itself.  The width is what this indentation leaves of eighty
columns.
-/

namespace DataShape.Docs

/-- The columns of a line. -/
def columns : Nat := 80

/-- How much deeper than its heading a definition stands. -/
def step : Nat := 4

/-- The definition of a schema on one line if that takes at most `width` columns. -/
def fit (s : Schema) (width : Nat) : String :=
  let line := s.toDefinition.compact
  if line.length ≤ width then line else s.pretty

/-- The heading and the definition of a schema for lines of a width. -/
def block (s : Schema) (width : Nat) : String :=
  "Return datatype:\n" ++ Text.indent step (fit s (width - step))

/-- A documentation text with the block of a schema behind it. -/
def append (doc : String) (s : Schema) : String :=
  let depth := Text.margin doc
  doc ++ "\n\n" ++ Text.indent depth (block s (columns - depth))

end DataShape.Docs
