import DataShape.Proofs.Decimal.Finite
import DataShape.Proofs.Json.Tree
import DataShape.Proofs.Value.Tree
import DataShape.Value.Json

/-!
# Values that come back from JSON

A value comes back from its JSON tree with null for every float that is not finite
(`ofJson_toJson_eq`).  So it comes back as it was if it is finite (`ofJson_toJson`), and
only then as an equal value (`same_ofJson_toJson_iff`).  What is read from JSON is finite in any case
(`finite_ofJson`): a JSON number is finite, and so is the double that stands in for
an integer out of range.
-/

namespace DataShape.Value

/-! ## The maps, item by item -/

theorem ofItems_eq_map (items : List Json) : ofItems items = items.map ofJson := by
  induction items with
  | nil => rfl
  | cons item rest ih => rw [ofItems, ih, List.map_cons]

theorem ofMembers_eq_map (members : List (String × Json)) :
    ofMembers members = members.map fun m => (m.1, ofJson m.2) := by
  induction members with
  | nil => rfl
  | cons member rest ih => rw [ofMembers, ih, List.map_cons]

theorem toItems_eq_map (items : List Value) : toItems items = items.map toJson := by
  induction items with
  | nil => rfl
  | cons item rest ih => rw [toItems, ih, List.map_cons]

theorem toMembers_eq_map (entries : List (String × Value)) :
    toMembers entries = entries.map fun e => (e.1, toJson e.2) := by
  induction entries with
  | nil => rfl
  | cons entry rest ih => rw [toMembers, ih, List.map_cons]

/-! ## There and back -/

theorem ofJson_toJson_int (i : Int64) : ofJson (toJson (.int i)) = .int i := by
  have range : -Int.pow 2 63 ≤ i.toInt ∧ i.toInt < Int.pow 2 63 := ⟨i.le_toInt, i.toInt_lt⟩
  show (if _ then Value.int (Int64.ofInt i.toInt) else _) = .int i
  rw [if_pos range, Int64.ofInt_toInt]

theorem ofJson_toJson_list (items : List Value) :
    ofJson (toJson (.list items)) = .list (items.map fun v => ofJson v.toJson) := by
  rw [toJson, ofJson, ofItems_eq_map, toItems_eq_map, List.map_map]
  rfl

theorem ofJson_toJson_dict (entries : List (String × Value)) :
    ofJson (toJson (.dict entries)) = .dict (entries.map fun e => (e.1, ofJson e.2.toJson)) := by
  rw [toJson, ofJson, ofMembers_eq_map, toMembers_eq_map, List.map_map]
  rfl

mutual

/-- The value with null for every float that is not finite. -/
def nullified : Value → Value
  | .float x => if x.isFinite then .float x else .null
  | .list items => .list (nullifiedItems items)
  | .dict entries => .dict (nullifiedEntries entries)
  | v => v

/-- The items of a list with null for every float that is not finite. -/
def nullifiedItems : List Value → List Value
  | [] => []
  | item :: rest => nullified item :: nullifiedItems rest

/-- The entries of a dictionary with null for every float that is not finite. -/
def nullifiedEntries : List (String × Value) → List (String × Value)
  | [] => []
  | (key, item) :: rest => (key, nullified item) :: nullifiedEntries rest

end

theorem nullifiedItems_eq_map (items : List Value) : nullifiedItems items = items.map nullified := by
  induction items with
  | nil => rfl
  | cons item rest ih => rw [nullifiedItems, ih, List.map_cons]

theorem nullifiedEntries_eq_map (entries : List (String × Value)) :
    nullifiedEntries entries = entries.map fun e => (e.1, nullified e.2) := by
  induction entries with
  | nil => rfl
  | cons entry rest ih => rw [nullifiedEntries, ih, List.map_cons]

/-- A value comes back with null for every float that is not finite. -/
theorem ofJson_toJson_eq (v : Value) : ofJson v.toJson = v.nullified := by
  induction v with
  | null | bool | str => rfl
  | int i => exact ofJson_toJson_int i
  | float x =>
      rw [toJson, nullified]
      by_cases finite : x.isFinite = true
      · rw [dif_pos finite, if_pos finite]
        rfl
      · rw [dif_neg finite, if_neg finite]
        rfl
  | list items ih =>
      rw [ofJson_toJson_list, nullified, nullifiedItems_eq_map]
      exact congrArg list (List.map_congr_left ih)
  | dict entries ih =>
      rw [ofJson_toJson_dict, nullified, nullifiedEntries_eq_map]
      exact congrArg dict (List.map_congr_left fun e mem => Prod.ext rfl (ih e mem))

/-- A finite value comes back as it was. -/
theorem ofJson_toJson {v : Value} (finite : v.Finite) : ofJson v.toJson = v := by
  induction v with
  | null | bool | str => rfl
  | int i => exact ofJson_toJson_int i
  | float x =>
      rw [toJson, dif_pos (finite_float_iff.1 finite)]
      rfl
  | list items ih =>
      rw [ofJson_toJson_list, List.map_congr_left (g := id), List.map_id]
      exact fun v mem => ih v mem (finite_list_iff.1 finite v mem)
  | dict entries ih =>
      rw [ofJson_toJson_dict, List.map_congr_left (g := id), List.map_id]
      exact fun e mem => Prod.ext rfl (ih e mem (finite_dict_iff.1 finite e mem))

/-- A value comes back as an equal value only if it is finite. -/
theorem same_ofJson_toJson_iff {v : Value} (distinct : v.Distinct) :
    (ofJson v.toJson).same v = true ↔ v.Finite := by
  induction v with
  | null => exact iff_of_true rfl (finite_leaf rfl (by simp))
  | bool | str => exact iff_of_true (by simp [toJson, ofJson, same]) (finite_leaf rfl (by simp))
  | int i => exact iff_of_true (by simp [ofJson_toJson_int, same]) (finite_leaf rfl (by simp))
  | float x =>
      rw [finite_float_iff]
      by_cases finite : x.isFinite = true
      · rw [toJson, dif_pos finite]
        exact iff_of_true (Decimal.beq_self_of_isFinite finite) finite
      · rw [toJson, dif_neg finite]
        exact iff_of_false (fun same => nomatch same) finite
  | list items ih =>
      rw [ofJson_toJson_list, same, sameItems_map_iff, finite_list_iff]
      exact forall₂_congr fun v mem => ih v mem (distinct_list_iff.1 distinct v mem)
  | dict entries ih =>
      obtain ⟨keys, distinct⟩ := distinct_dict_iff.1 distinct
      rw [ofJson_toJson_dict, same, List.length_map, beq_self_eq_true, Bool.true_and,
        sameEntries_map_iff (f := fun v => ofJson v.toJson) keys, finite_dict_iff]
      exact forall₂_congr fun e mem => ih e mem (distinct e mem)

/-- A value that is read from JSON is finite. -/
theorem finite_ofJson (d : Json) : (ofJson d).Finite := by
  induction d with
  | null | bool | string => exact finite_leaf rfl (by simp [ofJson])
  | number n =>
      rw [ofJson]
      cases n with
      | float x finite => exact finite_float_iff.2 finite
      | int i exact =>
          rw [ofNumber]
          split
          · exact finite_leaf rfl (by simp)
          · next large =>
              have lower : Int.pow 2 63 ≤ i := Int.not_lt.1 fun less => large ⟨exact.1, less⟩
              exact finite_float_iff.2 (Decimal.isFinite_nearestInt lower exact.2)
  | array items ih =>
      rw [ofJson, ofItems_eq_map, finite_list_iff, List.forall_mem_map]
      exact ih
  | object members ih =>
      rw [ofJson, ofMembers_eq_map, finite_dict_iff, List.forall_mem_map]
      exact ih

end DataShape.Value
