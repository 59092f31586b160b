import DataShape.Decimal.Numeral
import DataShape.Text.Hex

/-!
# Texts in YAML

A text is written plain if a reader takes it for this same text.  That fails for
two reasons.  It may look like something else than a text: like null, a truth
value or a number.  Or its characters may mean something to the reader, such as
a comment or a mapping.  Such a text gets single quotes.

A text with line feeds is written as a literal block, line by line.  Single
quotes and blocks have limits of their own.  Neither can hold a character that
is not printable, or a space in front of a line break.  Where they fail, double
quotes with escapes hold every text.
-/

namespace DataShape.Yaml

/-! ## Texts that look like something else -/

/-- The spellings of null and of the truth values. -/
def words : List String :=
  ["null", "Null", "NULL", "~", "true", "True", "TRUE", "false", "False", "FALSE"]

/-- The spellings of infinity and NaN. -/
def floatWords : List String :=
  [".inf", ".Inf", ".INF", "+.inf", "+.Inf", "+.INF", "-.inf", "-.Inf", "-.INF",
   ".nan", ".NaN", ".NAN"]

/-- The value of a digit in a base. -/
def digit? (base : Nat) (c : Char) : Option Nat :=
  (Text.hexValue? c).filter (· < base)

/-- The number that one or more digits of a base stand for. -/
def natural? (base : Nat) (cs : List Char) : Option Nat :=
  if cs.isEmpty then none
  else cs.foldlM (fun n c => (digit? base c).map (base * n + ·)) 0

/-- The number that digits stand for behind a mark of their base. -/
def based? : List Char → Option Nat
  | '0' :: 'x' :: cs => natural? 16 cs
  | '0' :: 'o' :: cs => natural? 8 cs
  | '0' :: 'b' :: cs => natural? 2 cs
  | _ => none

/-- Whether a text is a number behind a mark of its base, with at most 128 bits. -/
def isBased (cs : List Char) : Bool :=
  match cs with
  | '-' :: rest => (based? rest).any (· ≤ Nat.pow 2 127)
  | '+' :: rest => (based? rest).any (· < Nat.pow 2 128)
  | rest => (based? rest).any (· < Nat.pow 2 128)

/-- Whether a text is a finite decimal, with or without point and exponent. -/
def isDecimal (cs : List Char) : Bool :=
  let rest := match cs with
    | '+' :: '+' :: _ => []
    | '+' :: '-' :: _ => []
    | '+' :: rest => rest
    | rest => rest
  (Decimal.float? rest).any Float.isFinite

/-- Whether a text is zeros and digits behind them, as no number is written. -/
def isPadded (cs : List Char) : Bool :=
  match (Decimal.splitSign cs).2 with
  | '0' :: d :: ds => (d :: ds).all Char.isDigit
  | _ => false

/-- Whether a text is taken for something else than a text. -/
def looksTyped (cs : List Char) : Bool :=
  let s := String.ofList cs
  words.contains s || floatWords.contains s || isBased cs || isDecimal cs || isPadded cs

/-! ## Characters that mean something -/

/-- The line breaks.  Two of them, U+000D and U+0085, are not printable. -/
def isBreak (c : Char) : Bool :=
  c == '\n' || c == '\r' || c == '\u0085' || c == '\u2028' || c == '\u2029'

/-- Whether a character may stand in a text as it is. -/
def isPrintable (c : Char) : Bool :=
  c == '\n' || (' ' ≤ c && c ≤ '~') ||
    ('\u00a0' ≤ c && c != '\ufeff' && c != '\ufffe' && c != '\uffff')

/-- Whether nothing or a space comes next. -/
def endsWord : List Char → Bool
  | [] => true
  | c :: _ => c == ' ' || isBreak c

/-- The characters that no plain text starts with. -/
def openers : List Char :=
  ['#', ',', '[', ']', '\x7b', '\x7d', '&', '*', '!', '|', '>', '\'', '"', '%', '@', '`']

/-- Whether a text starts like something else than a plain text. -/
def opensMarkup : List Char → Bool
  | '-' :: '-' :: '-' :: _ => true
  | '.' :: '.' :: '.' :: _ => true
  | c :: rest => openers.contains c || ((c == '-' || c == '?' || c == ':') && endsWord rest)
  | [] => true

/-- Whether a mapping or a comment seems to start behind the first character.
`before` is the character in front of the text. -/
def holdsMarkup (before : Char) : List Char → Bool
  | [] => false
  | c :: rest =>
      (c == ':' && endsWord rest) || (c == '#' && (before == ' ' || isBreak before)) ||
        holdsMarkup c rest

/-- Whether a text needs no quotes for the sake of its characters. -/
def isPlain (cs : List Char) : Bool :=
  match cs with
  | [] => false
  | first :: rest =>
      cs.all isPrintable && !cs.any isBreak && first != ' ' && cs.getLast? != some ' ' &&
        !opensMarkup cs && !holdsMarkup first rest

/-- Whether a character with one property comes directly before one with another. -/
def adjacent (p q : Char → Bool) (cs : List Char) : Bool :=
  (cs.zip cs.tail).any fun (c, d) => p c && q d

/-- Whether single quotes and blocks fail to hold a text. -/
def needsEscapes (cs : List Char) : Bool :=
  !cs.all isPrintable || adjacent (· == ' ') isBreak cs

/-! ## Styles -/

/-- The ways to write a text. -/
inductive Style where
  /-- The text itself. -/
  | plain
  /-- Between single quotes, which are doubled in the text. -/
  | single
  /-- Between double quotes, with escapes. -/
  | double
  /-- Line by line below a mark. -/
  | block
deriving DecidableEq, Repr

/-- How a text is written. -/
def styleOf (cs : List Char) : Style :=
  if cs.contains '\n' then
    if needsEscapes cs || cs.getLast? == some ' ' then .double else .block
  else if isPlain cs && !looksTyped cs then .plain
  else if needsEscapes cs || adjacent isBreak (· == ' ') cs then .double
  else .single

/-- The letter of a character that has an escape of its own. -/
def escapeLetter? (c : Char) : Option Char :=
  [('\x00', '0'), ('\x07', 'a'), ('\x08', 'b'), ('\t', 't'), ('\n', 'n'), ('\x0b', 'v'),
   ('\x0c', 'f'), ('\r', 'r'), ('\x1b', 'e'), ('"', '"'), ('\\', '\\'), ('\u0085', 'N'),
   ('\u2028', 'L'), ('\u2029', 'P')].lookup c

/-- A character as it stands inside double quotes. -/
def escape (c : Char) : List Char :=
  match escapeLetter? c with
  | some letter => ['\\', letter]
  | none =>
      if isPrintable c then [c]
      else if c.toNat ≤ 0xff then '\\' :: 'x' :: Text.upperHex 2 c.toNat
      else if c.toNat ≤ 0xffff then '\\' :: 'u' :: Text.upperHex 4 c.toNat
      else '\\' :: 'U' :: Text.upperHex 8 c.toNat

/-- A text between double quotes. -/
def doubleQuoted (cs : List Char) : List Char := '"' :: (cs.flatMap escape ++ ['"'])

/-- A run of spaces. -/
def spaces (n : Nat) : List Char := List.replicate n ' '

/-- The characters of a text, each line behind `n` spaces and empty lines empty.
`fresh` tells whether a line starts here. -/
def indented (n : Nat) (fresh : Bool) : List Char → List Char
  | [] => []
  | c :: rest =>
      if isBreak c then c :: indented n true rest
      else if fresh then spaces n ++ c :: indented n false rest
      else c :: indented n false rest

/-- Double the single quotes of a text. -/
def doubleQuotes (cs : List Char) : List Char :=
  cs.flatMap fun c => if c == '\'' then ['\'', '\''] else [c]

/-- A text between single quotes.  A line break inside is followed by `n` spaces. -/
def singleQuoted (n : Nat) (cs : List Char) : List Char :=
  '\'' :: (indented n false (doubleQuotes cs) ++
    (if cs.getLast?.any isBreak then spaces n else []) ++ ['\''])

/-- The mark of a block.  It tells the indentation if the first line does not show
it, and whether the text ends without a line break or with empty lines. -/
def blockMark (cs : List Char) : List Char :=
  let indentation := if cs.head?.any fun c => c == ' ' || isBreak c then ['2'] else []
  let ending := match cs.reverse with
    | [] => ['-']
    | [last] => if isBreak last then ['+'] else ['-']
    | last :: previous :: _ =>
        if !isBreak last then ['-'] else if isBreak previous then ['+'] else []
  '|' :: (indentation ++ ending)

/-- A text as a block with lines behind `n` spaces.  It ends in a line break. -/
def literalBlock (n : Nat) (cs : List Char) : List Char :=
  blockMark cs ++ '\n' :: (indented n true cs ++
    (if cs.getLast?.any isBreak then [] else ['\n']))

/-- A text as a scalar, with the line break behind it.  Further lines are behind
`n` spaces. -/
def textLine (n : Nat) (s : String) : String :=
  let cs := s.toList
  String.ofList <| match styleOf cs with
    | .plain => cs ++ ['\n']
    | .single => singleQuoted n cs ++ ['\n']
    | .double => doubleQuoted cs ++ ['\n']
    | .block => literalBlock n cs

end DataShape.Yaml
