/-!
# Blank characters

A character is *blank* if it has the Unicode property `White_Space`.  There are
twenty-five of them.  The zero-width space, the byte order mark and the
information separators (U+001C to U+001F) are not among them.

The functions work on lists of characters.  `trimStart` and `trim` remove the
blank ends of a text, and `cut?` splits it at its first blank character.
-/

namespace DataShape.Text

/-- The blank characters in ascending order. -/
def blanks : List Char :=
  ['\t', '\n', '\x0b', '\x0c', '\r', ' ', '\u0085', '\u00a0', '\u1680',
   '\u2000', '\u2001', '\u2002', '\u2003', '\u2004', '\u2005', '\u2006', '\u2007',
   '\u2008', '\u2009', '\u200a', '\u2028', '\u2029', '\u202f', '\u205f', '\u3000']

/-- Whether a character is blank. -/
def isBlank (c : Char) : Bool := blanks.contains c

/-- A text without its leading blanks. -/
def trimStart (cs : List Char) : List Char := cs.dropWhile isBlank

/-- A text without its trailing blanks. -/
def trimEnd (cs : List Char) : List Char := (cs.reverse.dropWhile isBlank).reverse

/-- A text without its leading and its trailing blanks. -/
def trim (cs : List Char) : List Char := trimEnd (trimStart cs)

/-- The text before the first blank and the text after it, if there is a blank. -/
def cut? : List Char → Option (List Char × List Char)
  | [] => none
  | c :: cs =>
      if isBlank c then some ([], cs)
      else (cut? cs).map fun (word, tail) => (c :: word, tail)

/-! ## First facts -/

example : blanks.length = 25 := rfl
example : blanks.Pairwise (· < ·) := by decide

theorem trimStart_nil : trimStart [] = [] := rfl

theorem trimStart_cons (c : Char) (cs : List Char) :
    trimStart (c :: cs) = if isBlank c then trimStart cs else c :: cs := by
  rw [trimStart, List.dropWhile_cons, trimStart]

end DataShape.Text
