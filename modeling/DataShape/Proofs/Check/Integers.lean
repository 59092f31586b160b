import DataShape.Check.Convert
import DataShape.Proofs.Decimal.Integer
import DataShape.Proofs.Text.Blank

/-!
# Texts that convert to integers

A text converts to an integer if it is a numeral between blanks and its value is a machine
integer.  Both ends of the range are met exactly, however many digits the text has, and every
other text is refused (`text_to_int_exact`).

The text that an integer converts to is a numeral, so it converts back, also between blanks.
-/

namespace DataShape

open Text (Blank)

/-- The text stands for the integer, with blanks around it or without. -/
def Decimal.Padded (cs : List Char) (i : Int) : Prop :=
  ∃ lead numeral trail, Blank lead ∧ Blank trail ∧ cs = lead ++ numeral ++ trail ∧
    Numeral numeral i

variable {cs ds : List Char} {i : Int} {n : Nat} {m : Int64}

/-! ## Numerals between blanks -/

namespace Decimal

theorem isBlank_of_isDigit {d : Char} (digit : d.isDigit = true) : Text.isBlank d = false := by
  have none : Text.blanks.all (!·.isDigit) = true := by decide
  by_contra blank
  have mem : d ∈ Text.blanks := List.contains_iff_mem.1 (Bool.not_eq_false _ ▸ blank)
  simpa [digit] using List.all_eq_true.1 none d mem

theorem Digits.solid (digits : Digits ds n) : Text.Solid ds :=
  fun d mem => isBlank_of_isDigit (digits.2.1 d mem)

/-- There is no blank in a numeral. -/
theorem Numeral.solid (numeral : Numeral cs i) : Text.Solid cs := by
  cases numeral with
  | plain digits => exact digits.solid
  | plus digits => exact List.forall_mem_cons.2 ⟨by decide, digits.solid⟩
  | minus digits => exact List.forall_mem_cons.2 ⟨by decide, digits.solid⟩

/-- What is left between the blanks is the numeral. -/
theorem padded_iff : Padded cs i ↔ Numeral (Text.trim cs) i := by
  constructor
  · rintro ⟨lead, numeral, trail, blank, blank', rfl, stands⟩
    have back : Text.Solid numeral.reverse := fun c mem => stands.solid c (List.mem_reverse.1 mem)
    rwa [Text.trim_eq_iff.2 ⟨⟨stands.solid.flush, back.flush⟩, lead, trail, blank, blank', rfl⟩]
  · intro stands
    obtain ⟨-, lead, trail, blank, blank', split⟩ := Text.trim_eq_iff.1 (Eq.refl (Text.trim cs))
    exact ⟨lead, _, trail, blank, blank', split, stands⟩

end Decimal

/-! ## Machine integers -/

theorem toMachine?_eq_some_iff : toMachine? i = some m ↔ m.toInt = i := by
  rw [toMachine?]
  constructor
  · intro some
    split at some
    · next range =>
        obtain rfl := Option.some.inj some
        exact Int64.toInt_ofInt_of_le range.1 range.2
    · cases some
  · rintro rfl
    rw [if_pos ⟨m.le_toInt, m.toInt_lt⟩, Int64.ofInt_toInt]

theorem toMachine?_eq_none_iff : toMachine? i = none ↔ ¬ (-2 ^ 63 ≤ i ∧ i ≤ 2 ^ 63 - 1) := by
  rw [Int.le_sub_one_iff]
  by_cases range : -2 ^ 63 ≤ i ∧ i < 2 ^ 63
  · refine iff_of_false (fun none => ?_) (not_not_intro range)
    cases (if_pos range).symm.trans none
  · exact iff_of_true (if_neg range) range

namespace Kind

open Decimal (Padded)

theorem convert?_text (s : String) : int.convert? (.str s) =
    ((Decimal.integer? (Text.trim s.toList)).bind toMachine?).map .int := rfl

/-- A text converts to the machine integer it stands for. -/
theorem convert?_text_eq_some_iff {s : String} :
    int.convert? (.str s) = some (.int m) ↔ Padded s.toList m.toInt := by
  rw [convert?_text, Decimal.padded_iff, ← Decimal.integer?_eq_some_iff]
  simp only [Option.map_eq_some_iff, Option.bind_eq_some_iff, toMachine?_eq_some_iff]
  constructor
  · rintro ⟨m', ⟨i, read, rfl⟩, eq⟩
    obtain rfl := Value.int.inj eq
    exact read
  · intro read
    exact ⟨m, ⟨_, read, rfl⟩, rfl⟩

/-- A text that stands for no machine integer does not convert. -/
theorem convert?_text_eq_none_iff {s : String} : int.convert? (.str s) = none ↔
    ¬ ∃ i, Padded s.toList i ∧ -2 ^ 63 ≤ i ∧ i ≤ 2 ^ 63 - 1 := by
  simp only [convert?_text, Decimal.padded_iff, ← Decimal.integer?_eq_some_iff,
    Option.map_eq_none_iff, Option.bind_eq_none_iff, toMachine?_eq_none_iff, not_exists, not_and]

/-- A text converts to an integer exactly if it is a numeral of that integer with blanks around
it, and to nothing if it is a numeral of no machine integer.  The text that an integer converts
to is one of its numerals, so with any blanks around it it converts back. -/
theorem text_to_int_exact :
    (∀ (s : String) (m : Int64),
      int.convert? (.str s) = some (.int m) ↔ Padded s.toList m.toInt) ∧
    (∀ s : String, int.convert? (.str s) = none ↔
      ¬ ∃ i, Padded s.toList i ∧ -2 ^ 63 ≤ i ∧ i ≤ 2 ^ 63 - 1) ∧
    ∀ m : Int64, ∃ t, str.convert? (.int m) = some (.str t) ∧
      ∀ lead trail : String, Blank lead.toList → Blank trail.toList →
        int.convert? (.str (lead ++ t ++ trail)) = some (.int m) := by
  refine ⟨fun s m => convert?_text_eq_some_iff, fun s => convert?_text_eq_none_iff, fun m => ?_⟩
  refine ⟨toString m.toInt, rfl, fun lead trail blank blank' => ?_⟩
  rw [convert?_text_eq_some_iff, String.toList_append, String.toList_append]
  exact ⟨_, _, _, blank, blank', rfl, Decimal.numeral_toString m.toInt⟩

/-- The least machine integer comes back from its text between blanks. -/
theorem least_integer_returns :
    str.convert? (.int Int64.minValue) = some (.str "-9223372036854775808") ∧
      int.convert? (.str "\u3000-9223372036854775808\n") = some (.int Int64.minValue) := by
  obtain ⟨t, text, returns⟩ := text_to_int_exact.2.2 Int64.minValue
  have written : str.convert? (.int Int64.minValue) = some (.str "-9223372036854775808") := rfl
  obtain rfl : t = "-9223372036854775808" :=
    Value.str.inj (Option.some.inj (text.symm.trans written))
  exact ⟨written, returns "\u3000" "\n" (by decide) (by decide)⟩

-- The number of digits does not matter, and there is one positive integer less than negative ones.
example : int.convert? (.str "+000000000000000000009223372036854775807") =
    some (.int Int64.maxValue) := rfl
example : int.convert? (.str "9223372036854775808") = none := rfl

end Kind

end DataShape
