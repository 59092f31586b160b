/-!
# Hexadecimal numbers

Escapes write a character as a fixed number of hexadecimal digits.
-/

namespace DataShape.Text

/-- The last `width` hexadecimal digits of a number, letters in lower case. -/
def lowerHex : (width : Nat) → (n : Nat) → List Char
  | 0, _ => []
  | width + 1, n => lowerHex width (n / 16) ++ [Nat.digitChar (n % 16)]

/-- The last `width` hexadecimal digits of a number, letters in upper case. -/
def upperHex (width n : Nat) : List Char := (lowerHex width n).map Char.toUpper

/-- The value of a hexadecimal digit in either case. -/
def hexValue? (c : Char) : Option Nat :=
  if '0' ≤ c ∧ c ≤ '9' then some (c.toNat - '0'.toNat)
  else if 'a' ≤ c ∧ c ≤ 'f' then some (c.toNat - 'a'.toNat + 10)
  else if 'A' ≤ c ∧ c ≤ 'F' then some (c.toNat - 'A'.toNat + 10)
  else none

/-- The number that a list of hexadecimal digits stands for, with `n` in front of it. -/
def readHex? (n : Nat) : List Char → Option Nat
  | [] => some n
  | c :: cs => (hexValue? c).bind fun d => readHex? (16 * n + d) cs

example : lowerHex 2 31 = ['1', 'f'] := by decide
example : upperHex 4 0xfeff = ['F', 'E', 'F', 'F'] := by decide
example : readHex? 0 ['0', '0', 'e', 'G'] = none := by decide

end DataShape.Text
