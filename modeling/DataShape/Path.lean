/-!
# Paths

A path leads from the root of a value to one of its parts.  It starts at a base,
which is empty for a value that stands alone, and goes down by list positions
and dictionary keys.

The text of a path puts a position in brackets and a point before a key, as in
`user.tags[2]`.  A key has no point in front of it if nothing stands before it.
-/

namespace DataShape

/-- A way down into a value. -/
inductive Path where
  /-- The root, with the text that leads to it. -/
  | base (text : String)
  | index (parent : Path) (i : Nat)
  | key (parent : Path) (name : String)
deriving DecidableEq, Repr, Inhabited

namespace Path

/-- The root of a value that stands alone. -/
def root : Path := .base ""

/-- The text of a path. -/
def text : Path → String
  | .base s => s
  | .index parent i => parent.text ++ "[" ++ toString i ++ "]"
  | .key parent name => if parent.text = "" then name else parent.text ++ "." ++ name

example : (root.key "user" |>.key "tags" |>.index 2).text = "user.tags[2]" := by decide +kernel
example : (root.index 0 |>.key "a").text = "[0].a" := by decide +kernel

end Path

end DataShape
