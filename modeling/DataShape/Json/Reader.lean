import DataShape.Json.Basic
import DataShape.Text.Hex

/-!
# Reading JSON text

`read?` reads a whole text as one JSON tree.  It goes from left to right and
stops at the first defect.  There are two kinds of defect: the text ends where
more is needed, or it goes on in a way that no JSON text does.

Some rules are stricter or looser than the grammar suggests.

* A number above all doubles is a defect.  The number `-0` is the double `-0.0`.
* A `\u` escape needs four more bytes of text, else the text has ended, and these
  have to be hexadecimal digits.  Surrogates have to come in pairs.
* Brackets nest only up to a limit.
* A repeated key of an object keeps its first place and takes its last value.

Every step returns the rest of the text with the proof that it is shorter, which
is why reading ends.
-/

namespace DataShape.Json

/-- Why a text is no JSON text. -/
inductive Defect where
  /-- The text ends where more is needed. -/
  | ended
  /-- The text goes on in a way that is not allowed. -/
  | malformed
deriving DecidableEq, Repr

/-- Something read from the start of a text, and the rest of the text. -/
structure Part (α : Type) (cs : List Char) where
  result : α
  rest : List Char
  /-- At least one character was read. -/
  shorter : rest.length < cs.length

/-- A part of the end of a text is a part of the text. -/
def Part.widen {α : Type} {cs ds : List Char} (h : cs.length ≤ ds.length) (p : Part α cs) :
    Part α ds :=
  ⟨p.result, p.rest, Nat.lt_of_lt_of_le p.shorter h⟩

/-- Change what was read. -/
def Part.map {α β : Type} {cs : List Char} (f : α → β) (p : Part α cs) : Part β cs :=
  ⟨f p.result, p.rest, p.shorter⟩

/-- A way to read something from the start of a text. -/
abbrev Reader (α : Type) : Type := (cs : List Char) → Except Defect (Part α cs)

/-- The defect of a text that goes on wrongly or not at all. -/
def defectAt : List Char → Defect
  | [] => .ended
  | _ => .malformed

/-! ## Blanks -/

/-- The characters allowed between tokens. -/
def isSpace (c : Char) : Bool := c == ' ' || c == '\n' || c == '\t' || c == '\r'

/-- A text without the spaces it starts with. -/
def skipSpaces (cs : List Char) : List Char := cs.dropWhile isSpace

theorem length_skipSpaces_le (cs : List Char) : (skipSpaces cs).length ≤ cs.length :=
  (List.dropWhile_sublist isSpace).length_le

/-- Read something behind spaces. -/
def afterSpaces {α : Type} (reader : Reader α) : Reader α := fun cs =>
  (reader (skipSpaces cs)).map (Part.widen (length_skipSpaces_le cs))

/-! ## Words and texts -/

/-- The rest of a text behind a word.  The text has ended if it is a proper start
of the word. -/
def skipWord : (word cs : List Char) → Except Defect (List Char)
  | [], cs => .ok cs
  | _ :: _, [] => .error .ended
  | w :: word, c :: cs => if w = c then skipWord word cs else .error .malformed

theorem length_of_skipWord {word cs rest : List Char} (h : skipWord word cs = .ok rest) :
    rest.length + word.length = cs.length := by
  induction word generalizing cs with
  | nil => simpa [skipWord] using (congrArg List.length (Except.ok.inj h)).symm
  | cons w word ih =>
      cases cs with
      | nil => simp [skipWord] at h
      | cons c cs =>
          rw [skipWord] at h
          split at h
          · simp [← ih h]; omega
          · simp at h

/-- Read a word that stands for a tree. -/
def readWord (w : Char) (word : List Char) (json : Json) : Reader Json := fun cs =>
  match h : skipWord (w :: word) cs with
  | .error e => .error e
  | .ok rest => .ok ⟨json, rest, by simp [← length_of_skipWord h]⟩

/-- The four hexadecimal digits a text starts with, as a number. -/
def readHex : Reader Nat
  | a :: b :: c :: d :: rest =>
      match Text.readHex? 0 [a, b, c, d] with
      | some n => .ok ⟨n, rest, by simp; omega⟩
      | none => .error .malformed
  | cs => .error (if (cs.map Char.utf8Size).foldr (· + ·) 0 < 4 then .ended else .malformed)

/-- Read what follows `\u`: a code unit, or two that form a surrogate pair. -/
def readUnit : Reader Char := fun cs => do
  let first ← readHex cs
  if 0xdc00 ≤ first.result ∧ first.result ≤ 0xdfff then .error .malformed
  else if 0xd800 ≤ first.result ∧ first.result ≤ 0xdbff then
    match h : skipWord ['\\', 'u'] first.rest with
    | .error e => .error e
    | .ok rest =>
        let second ← readHex rest
        if 0xdc00 ≤ second.result ∧ second.result ≤ 0xdfff then
          let code := 0x10000 + (first.result - 0xd800) * 0x400 + (second.result - 0xdc00)
          .ok ⟨Char.ofNat code, second.rest, by
            have := first.shorter; have := second.shorter; have := length_of_skipWord h
            simp at this; omega⟩
        else .error .malformed
  else .ok ⟨Char.ofNat first.result, first.rest, first.shorter⟩

/-- The character that a one-letter escape stands for. -/
def unescape? (c : Char) : Option Char :=
  if c = '"' ∨ c = '\\' ∨ c = '/' then some c
  else if c = 'b' then some '\x08'
  else if c = 'f' then some '\x0c'
  else if c = 'n' then some '\n'
  else if c = 'r' then some '\r'
  else if c = 't' then some '\t'
  else none

/-- Read what follows a backslash. -/
def readEscape : Reader Char
  | [] => .error .ended
  | c :: rest =>
      if c = 'u' then (readUnit rest).map (Part.widen (by simp))
      else match unescape? c with
        | some d => .ok ⟨d, rest, by simp⟩
        | none => .error .malformed

/-- Read the characters up to a closing quote. -/
def readQuoted (cs : List Char) : Except Defect (Part (List Char) cs) :=
  match cs with
  | [] => .error .ended
  | '"' :: rest => .ok ⟨[], rest, by simp⟩
  | '\\' :: rest => do
      let c ← readEscape rest
      have := c.shorter
      let more ← readQuoted c.rest
      .ok ⟨c.result :: more.result, more.rest, by have := more.shorter; simp; omega⟩
  | c :: rest => do
      if c.toNat < 0x20 then .error .malformed
      else
        let more ← readQuoted rest
        .ok ⟨c :: more.result, more.rest, by have := more.shorter; simp; omega⟩
termination_by cs.length
decreasing_by all_goals (simp_wf; try omega)

/-- Read a text in quotes. -/
def readText : Reader String
  | '"' :: rest => (readQuoted rest).map fun p => (p.map String.ofList).widen (by simp)
  | cs => .error (defectAt cs)

/-! ## Numbers -/

/-- Read one or more digits. -/
def readDigits : Reader (List Char) := fun cs =>
  match h : cs.takeWhile Char.isDigit with
  | [] => .error (defectAt cs)
  | d :: ds => .ok ⟨d :: ds, cs.dropWhile Char.isDigit, by
      have := congrArg List.length (List.takeWhile_append_dropWhile (p := Char.isDigit) (l := cs))
      simp [h] at this; omega⟩

/-- Read the digits before the point.  A leading zero stands alone. -/
def readWhole : Reader (List Char) := fun cs => do
  let ds ← readDigits cs
  match ds.result with
  | '0' :: _ :: _ => .error .malformed
  | _ => .ok ds

/-- Digits that may be missing, and the rest of a text that is not longer. -/
structure Tail (α : Type) (cs : List Char) where
  result : Option α
  rest : List Char
  /-- The rest is an end of the text. -/
  notLonger : rest.length ≤ cs.length

/-- Read the point and the digits behind it, if there is a point. -/
def readFraction (cs : List Char) : Except Defect (Tail (List Char) cs) :=
  match cs with
  | '.' :: rest => do
      let ds ← readDigits rest
      .ok ⟨some ds.result, ds.rest, Nat.le_succ_of_le (Nat.le_of_lt ds.shorter)⟩
  | cs => .ok ⟨none, cs, Nat.le_refl _⟩

/-- Read an exponent, if there is one. -/
def readExponent (cs : List Char) : Except Defect (Tail Int cs) :=
  match cs with
  | [] => .ok ⟨none, [], Nat.le_refl _⟩
  | c :: rest =>
      if c = 'e' ∨ c = 'E' then do
        let ds ← readDigits (Decimal.splitSign rest).2
        let e : Int := Decimal.value ds.result
        .ok ⟨some (if (Decimal.splitSign rest).1 then -e else e), ds.rest, by
          have := ds.shorter; have := Decimal.length_splitSign_le rest; simp; omega⟩
      else .ok ⟨none, c :: rest, Nat.le_refl _⟩

/-- The number with these parts.  It is an integer if it has neither fraction nor
exponent, minus zero apart. -/
def Number.ofParts? (negative : Bool) (whole : List Char) (fraction : Option (List Char))
    (exponent : Option Int) : Option Number :=
  let i := Decimal.value whole
  match fraction, exponent with
  | none, none =>
      if negative then if i = 0 then Number.ofFloat? (-0.0) else Number.ofInt? (-i)
      else Number.ofInt? i
  | _, _ =>
      Number.ofFloat? <| Decimal.nearest negative <|
        Decimal.assemble whole (fraction.getD []) (exponent.getD 0)

/-- Read a number without its sign. -/
def readUnsigned (negative : Bool) : Reader Json := fun cs => do
  let whole ← readWhole cs
  let fraction ← readFraction whole.rest
  let exponent ← readExponent fraction.rest
  match Number.ofParts? negative whole.result fraction.result exponent.result with
  | none => .error .malformed
  | some n => .ok ⟨.number n, exponent.rest, by
      have := whole.shorter; have := fraction.notLonger; have := exponent.notLonger; omega⟩

/-! ## Trees -/

/-- Read items up to a closing bracket, with a comma between them. -/
def readItems (item : Reader Json) (cs : List Char) : Except Defect (Part (List Json) cs) := do
  let first ← afterSpaces item cs
  match h : skipSpaces first.rest with
  | ']' :: rest => .ok ⟨[first.result], rest, by
      have := first.shorter; have := length_skipSpaces_le first.rest; simp [h] at this; omega⟩
  | ',' :: rest =>
      have : rest.length < cs.length := by
        have := first.shorter; have := length_skipSpaces_le first.rest; simp [h] at this; omega
      let more ← readItems item rest
      .ok ⟨first.result :: more.result, more.rest, by have := more.shorter; omega⟩
  | other => .error (defectAt other)
termination_by cs.length

/-- Read a key, a colon and an item. -/
def readMember (item : Reader Json) : Reader (String × Json) := fun cs => do
  let key ← afterSpaces readText cs
  match h : skipSpaces key.rest with
  | ':' :: rest => do
      let value ← afterSpaces item rest
      .ok ⟨(key.result, value.result), value.rest, by
        have := key.shorter; have := value.shorter
        have := length_skipSpaces_le key.rest; simp [h] at this; omega⟩
  | other => .error (defectAt other)

/-- Read members up to a closing bracket, with a comma between them, after those
in `known`. -/
def readMembers (item : Reader Json) (known : List (String × Json)) (cs : List Char) :
    Except Defect (Part (List (String × Json)) cs) := do
  let first ← readMember item cs
  let known := Entries.insert first.result.1 first.result.2 known
  match h : skipSpaces first.rest with
  | '\x7d' :: rest => .ok ⟨known, rest, by
      have := first.shorter; have := length_skipSpaces_le first.rest; simp [h] at this; omega⟩
  | ',' :: rest =>
      have : rest.length < cs.length := by
        have := first.shorter; have := length_skipSpaces_le first.rest; simp [h] at this; omega
      let more ← readMembers item known rest
      .ok ⟨more.result, more.rest, by have := more.shorter; omega⟩
  | other => .error (defectAt other)
termination_by cs.length

/-- Read a tree whose brackets nest at most `depth` deep. -/
def readTree : (depth : Nat) → Reader Json
  | _, [] => .error .ended
  | _, 'n' :: rest => readWord 'n' ['u', 'l', 'l'] .null ('n' :: rest)
  | _, 't' :: rest => readWord 't' ['r', 'u', 'e'] (.bool true) ('t' :: rest)
  | _, 'f' :: rest => readWord 'f' ['a', 'l', 's', 'e'] (.bool false) ('f' :: rest)
  | _, '"' :: rest => (readText ('"' :: rest)).map (Part.map .string)
  | _, '-' :: rest => (readUnsigned true rest).map (Part.widen (by simp))
  | depth + 1, '[' :: rest =>
      match h : skipSpaces rest with
      | ']' :: rest' => .ok ⟨.array [], rest', by
          have := length_skipSpaces_le rest; simp [h] at this; simp; omega⟩
      | _ => (readItems (readTree depth) rest).map fun p => (p.map .array).widen (by simp)
  | depth + 1, '\x7b' :: rest =>
      match h : skipSpaces rest with
      | '\x7d' :: rest' => .ok ⟨.object [], rest', by
          have := length_skipSpaces_le rest; simp [h] at this; simp; omega⟩
      | _ => (readMembers (readTree depth) [] rest).map fun p => (p.map .object).widen (by simp)
  | _, c :: rest => if c.isDigit then readUnsigned false (c :: rest) else .error .malformed

/-- How deep brackets nest in a text that is accepted from outside. -/
def nestingLimit : Nat := 127

/-- The tree that a whole text stands for. -/
def readWithin (depth : Nat) (text : String) : Except Defect Json := do
  let tree ← afterSpaces (readTree depth) text.toList
  if (skipSpaces tree.rest).isEmpty then .ok tree.result else .error .malformed

/-- The tree that a whole text stands for, nested at most as deep as `nestingLimit`. -/
def read (text : String) : Except Defect Json := readWithin nestingLimit text

end DataShape.Json
