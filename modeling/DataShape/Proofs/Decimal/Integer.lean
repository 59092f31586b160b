import DataShape.Decimal.Numeral
import Mathlib.Data.List.Induction
import Mathlib.Data.Nat.Digits.Defs

/-!
# Integers in decimal digits

`Numeral` says which texts stand for an integer: one sign or none, and one digit or more, whose
value is the sum of the digits, each times its power of ten.  Neither the number of digits nor
that of leading zeros is bounded.  These are the texts that `integer?` accepts, with the value it
gives them (`integer?_eq_some_iff`), and the text that is written for an integer is one of them
(`numeral_toString`).
-/

namespace DataShape.Decimal

/-- The number a decimal digit stands for. -/
def digitValue (d : Char) : Nat := d.toNat - '0'.toNat

/-- The text is one decimal digit or more, and the number is their value in base ten. -/
def Digits (ds : List Char) (n : Nat) : Prop :=
  ds ≠ [] ∧ (∀ d ∈ ds, d.isDigit = true) ∧ n = Nat.ofDigits 10 (ds.reverse.map digitValue)

/-- The text stands for the integer. -/
inductive Numeral : (cs : List Char) → (i : Int) → Prop
  | plain {ds : List Char} {n : Nat} : Digits ds n → Numeral ds n
  | plus {ds : List Char} {n : Nat} : Digits ds n → Numeral ('+' :: ds) n
  | minus {ds : List Char} {n : Nat} : Digits ds n → Numeral ('-' :: ds) (-n)

variable {cs ds : List Char} {n : Nat} {i : Int}

/-! ## Digits -/

theorem value_eq_ofDigits (ds : List Char) :
    value ds = Nat.ofDigits 10 (ds.reverse.map digitValue) := by
  induction ds using List.reverseRecOn with
  | nil => rfl
  | append_singleton ds d ih =>
      rw [value, Nat.ofDigitChars_append, Nat.ofDigitChars_cons, Nat.ofDigitChars_nil,
        List.reverse_append, List.reverse_singleton, List.singleton_append, List.map_cons,
        Nat.ofDigits_cons, ← ih, value, digitValue]
      exact Nat.add_comm _ _

theorem digits_iff : Digits ds n ↔ (ds.isEmpty || !ds.all Char.isDigit) = false ∧ value ds = n := by
  rw [Digits, value_eq_ofDigits, eq_comm (a := n)]
  simp [and_assoc]

/-- A sign is no digit. -/
theorem Digits.splitSign_eq (digits : Digits ds n) : splitSign ds = (false, ds) := by
  unfold splitSign
  split
  · next cs => cases digits.2.1 '-' (by simp)
  · next cs => cases digits.2.1 '+' (by simp)
  · rfl

/-! ## Integers -/

theorem integer?_eq_some_iff_digits : integer? cs = some i ↔
    ∃ n, Digits (splitSign cs).2 n ∧ i = if (splitSign cs).1 then -(n : Int) else n := by
  simp only [digits_iff, integer?]
  cases accepted : ((splitSign cs).2.isEmpty || !(splitSign cs).2.all Char.isDigit) with
  | true => simp
  | false =>
      simp only [Bool.false_eq_true, if_false, Option.some.injEq, true_and, exists_eq_left']
      exact eq_comm

/-- The texts that are read as an integer. -/
theorem integer?_eq_some_iff : integer? cs = some i ↔ Numeral cs i := by
  rw [integer?_eq_some_iff_digits]
  constructor
  · rintro ⟨n, digits, rfl⟩
    unfold splitSign at digits ⊢
    split at digits
    · exact .minus digits
    · exact .plus digits
    · exact .plain digits
  · intro numeral
    cases numeral with
    | @plain _ n digits => exact ⟨n, by simpa [digits.splitSign_eq] using digits⟩
    | @plus ds n digits => exact ⟨n, digits, rfl⟩
    | @minus ds n digits => exact ⟨n, digits, rfl⟩

/-- The text of a number is its digits. -/
theorem digits_toString (n : Nat) : Digits (toString n).toList n := by
  rw [Nat.toString_eq_ofList_toDigits, String.toList_ofList]
  refine ⟨Nat.toDigits_ne_nil, fun d => Nat.isDigit_of_mem_toDigits (by decide) (by decide), ?_⟩
  rw [← value_eq_ofDigits, value, Nat.ofDigitChars_ten_toDigits]

/-- An integer is written as a numeral of it. -/
theorem numeral_toString (i : Int) : Numeral (toString i).toList i := by
  cases i with
  | ofNat n => exact .plain (digits_toString n)
  | negSucc n =>
      have text : (toString (Int.negSucc n)).toList = '-' :: (toString (n + 1)).toList := by
        simp [toString, Int.repr]
      rw [text]
      exact .minus (digits_toString (n + 1))

end DataShape.Decimal
