import DataShape.Proofs.Decimal.Closest
import DataShape.Proofs.Value.Json

/-!
# Conversions there and back

A tree comes back from its value with a double for every integer above the machine integers
(`toJson_ofJson_eq`), and a value comes back from its tree with null for every float that is not
finite.  Nothing else is lost either way, not the order of the keys, not whether a whole number
is an integer or a float, and not the sign of zero.

What is lost is lost the first time: a double in a tree is finite, so it comes back as it was, and
so does a value that has no other floats (`conversions_lose_numbers_only`).
-/

namespace DataShape

namespace Json

/-! ## Rounded trees -/

/-- The number, or the closest double in place of an integer above the machine integers. -/
def Number.rounded : Number → Number
  | .int i exact =>
      if above : Int.pow 2 63 ≤ i then
        .float (Decimal.nearestInt i) (Decimal.isFinite_nearestInt above exact.2)
      else .int i exact
  | .float x finite => .float x finite

mutual

/-- The tree with a double for every integer above the machine integers. -/
def rounded : Json → Json
  | .number n => .number n.rounded
  | .array items => .array (roundedItems items)
  | .object members => .object (roundedMembers members)
  | d => d

/-- The items of an array with a double for every integer above the machine integers. -/
def roundedItems : List Json → List Json
  | [] => []
  | item :: rest => rounded item :: roundedItems rest

/-- The members of an object with a double for every integer above the machine integers. -/
def roundedMembers : List (String × Json) → List (String × Json)
  | [] => []
  | (key, item) :: rest => (key, rounded item) :: roundedMembers rest

end

theorem roundedItems_eq_map (items : List Json) : roundedItems items = items.map rounded := by
  induction items with
  | nil => rfl
  | cons item rest ih => rw [roundedItems, ih, List.map_cons]

theorem roundedMembers_eq_map (members : List (String × Json)) :
    roundedMembers members = members.map fun m => (m.1, rounded m.2) := by
  induction members with
  | nil => rfl
  | cons member rest ih => rw [roundedMembers, ih, List.map_cons]

end Json

namespace Value

/-! ## From JSON and back -/

theorem toJson_ofNumber (n : Json.Number) : (ofNumber n).toJson = .number n.rounded := by
  cases n with
  | float x finite => rw [ofNumber, toJson, dif_pos finite, Json.Number.rounded]
  | int i exact =>
      rw [ofNumber, Json.Number.rounded]
      by_cases above : Int.pow 2 63 ≤ i
      · have outside : ¬ (-Int.pow 2 63 ≤ i ∧ i < Int.pow 2 63) :=
          fun range => Int.not_lt.2 above range.2
        rw [if_neg outside, dif_pos above, toJson,
          dif_pos (Decimal.isFinite_nearestInt above exact.2)]
      · have range : -Int.pow 2 63 ≤ i ∧ i < Int.pow 2 63 := ⟨exact.1, Int.not_le.1 above⟩
        have kept : (Int64.ofInt i).toInt = i := Int64.toInt_ofInt_of_le range.1 range.2
        rw [if_pos range, dif_neg above, toJson]
        simp only [Json.Number.ofInt64, kept]

/-- A tree comes back with a double for every integer above the machine integers. -/
theorem toJson_ofJson_eq (d : Json) : (ofJson d).toJson = d.rounded := by
  induction d with
  | null | bool | string => rfl
  | number n => exact toJson_ofNumber n
  | array items ih =>
      rw [ofJson, toJson, ofItems_eq_map, toItems_eq_map, List.map_map, Json.rounded,
        Json.roundedItems_eq_map]
      exact congrArg Json.array (List.map_congr_left ih)
  | object members ih =>
      rw [ofJson, toJson, ofMembers_eq_map, toMembers_eq_map, List.map_map, Json.rounded,
        Json.roundedMembers_eq_map]
      exact congrArg Json.object (List.map_congr_left fun m mem => Prod.ext rfl (ih m mem))

/-- A value that was read from JSON comes back as it was. -/
theorem ofJson_toJson_ofJson (d : Json) : ofJson (ofJson d).toJson = ofJson d :=
  ofJson_toJson (finite_ofJson d)

/-! ## Known loss -/

/-- Values lose floats that are not finite, and trees lose the last bits of integers above the
machine integers.  Converting a second time loses nothing. -/
theorem conversions_lose_numbers_only :
    (∀ v : Value, ofJson v.toJson = v.nullified) ∧
    (∀ d : Json, (ofJson d).toJson = d.rounded) ∧
    (∀ i, 2 ^ 63 ≤ i → i < 2 ^ 64 → Decimal.Closest i (Decimal.nearestInt i)) ∧
    (∀ v : Value, ofJson (ofJson v.toJson).toJson = ofJson v.toJson) ∧
    ∀ d : Json, (ofJson (ofJson d).toJson).toJson = (ofJson d).toJson :=
  ⟨ofJson_toJson_eq, toJson_ofJson_eq, fun _ => Decimal.closest_nearestInt,
    fun v => ofJson_toJson_ofJson v.toJson, fun d => congrArg toJson (ofJson_toJson_ofJson d)⟩

/-- The greatest integer of JSON is one less than the double that is closest to it. -/
theorem greatest_integer_rounded :
    Decimal.Closest (2 ^ 64 - 1) (Decimal.nearestInt (2 ^ 64 - 1)) ∧
      Decimal.nearestInt (2 ^ 64 - 1) = 18446744073709551616.0 :=
  ⟨conversions_lose_numbers_only.2.2.1 _ (by decide) (by decide), by decide +kernel⟩

end Value

end DataShape
