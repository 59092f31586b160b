import DataShape.Proofs.Schema.Like
import DataShape.Proofs.Value.Tree

/-!
# Equality of values is transitive

Equal floats are either two zeros or one number, and NaN equals nothing, not even
itself.  So equality of floats is transitive although it is not reflexive.  Lists are
compared item by item, and dictionaries by looking up each key, so both inherit this
(`Value.same_trans`).
-/

namespace DataShape

open Float.Model (UnpackedFloat)

/-! ## Floats -/

theorem eq_of_compare {e e' : Int} {m m' : Nat}
    (equal : (compare e e').then (compare m m') = .eq) : e = e' ∧ m = m' := by
  rwa [Ordering.then_eq_eq, Int.compare_eq_eq, Nat.compare_eq_eq] at equal

/-- Equal numbers are two zeros or one number. -/
theorem eq_or_zeros_of_beq {x y : UnpackedFloat} (equal : x.beq y = true) :
    x = y ∨ ∃ sign sign', x = .zero sign ∧ y = .zero sign' := by
  change (x.compare y == some .eq) = true at equal
  rw [beq_iff_eq] at equal
  cases x with
  | notANumber => cases equal
  | infinity s =>
      cases y with
      | notANumber => cases s <;> cases equal
      | infinity s' => cases s <;> cases s' <;> first | exact .inl rfl | cases equal
      | zero | finite => cases s <;> cases equal
  | zero s =>
      cases y with
      | notANumber => cases equal
      | infinity s' | finite s' => cases s' <;> cases equal
      | zero s' => exact .inr ⟨s, s', rfl, rfl⟩
  | finite s m e =>
      cases y with
      | notANumber | zero => cases s <;> cases equal
      | infinity s' => cases s <;> cases s' <;> cases equal
      | finite s' m' e' =>
          cases s with
          | negative =>
              cases s' with
              | positive => cases equal
              | negative =>
                  have swapped : ((compare e e').then (compare m m')).swap = .eq :=
                    Option.some.inj equal
                  obtain ⟨rfl, rfl⟩ := eq_of_compare (Ordering.swap_eq_eq.1 swapped)
                  exact .inl rfl
          | positive =>
              cases s' with
              | negative => cases equal
              | positive =>
                  obtain ⟨rfl, rfl⟩ := eq_of_compare (Option.some.inj equal)
                  exact .inl rfl

theorem float_beq_trans {x y z : Float} (first : (x == y) = true) (second : (y == z) = true) :
    (x == z) = true := by
  change x.toModel.unpack.beq y.toModel.unpack = true at first
  change y.toModel.unpack.beq z.toModel.unpack = true at second
  show x.toModel.unpack.beq z.toModel.unpack = true
  rcases eq_or_zeros_of_beq first with same | ⟨_, _, left, _⟩
  · rwa [same]
  · rcases eq_or_zeros_of_beq second with same | ⟨_, _, _, right⟩
    · rwa [← same]
    · rw [left, right]
      rfl

theorem float_beq_symm {x y : Float} (equal : (x == y) = true) : (y == x) = true := by
  change x.toModel.unpack.beq y.toModel.unpack = true at equal
  show y.toModel.unpack.beq x.toModel.unpack = true
  rcases eq_or_zeros_of_beq equal with same | ⟨_, _, left, right⟩
  · rwa [same] at equal ⊢
  · rw [left, right]
    rfl

namespace Value

variable {a b c : Value}

/-! ## Lists and dictionaries -/

theorem sameItems_iff {as bs : List Value} :
    sameItems as bs = true ↔ List.Forall₂ (fun a b => a.same b = true) as bs := by
  induction as generalizing bs with
  | nil => cases bs <;> simp [sameItems]
  | cons a as ih => cases bs <;> simp [sameItems, ih]

theorem sameItems_trans {as bs cs : List Value}
    (each : ∀ a ∈ as, ∀ b c : Value, a.same b = true → b.same c = true → a.same c = true)
    (first : sameItems as bs = true) (second : sameItems bs cs = true) :
    sameItems as cs = true := by
  rw [sameItems_iff] at first second ⊢
  refine Schema.forall₂_comp ?_ second
  rw [Schema.forall₂_iff_forall_zip] at first ⊢
  exact ⟨first.1, fun x mem c => each x.1 (List.of_mem_zip mem).1 x.2 c (first.2 x mem)⟩

theorem sameEntries_trans {as bs cs : List (String × Value)}
    (each : ∀ e ∈ as, ∀ b c : Value, e.2.same b = true → b.same c = true → e.2.same c = true)
    (first : sameEntries as bs = true) (second : sameEntries bs cs = true) :
    sameEntries as cs = true := by
  rw [sameEntries_iff] at first second ⊢
  intro e mem
  obtain ⟨b, found, same⟩ := first e mem
  obtain ⟨c, found', same'⟩ := second (e.1, b) (Entries.mem_of_find? found)
  exact ⟨c, found', each e mem b c same same'⟩

/-- What equals a value equals whatever that value equals. -/
theorem same_trans (first : a.same b = true) (second : b.same c = true) : a.same c = true := by
  induction a generalizing b c with
  | list items ih =>
      cases b <;> cases c <;> simp only [same, Bool.false_eq_true] at first second ⊢
      exact sameItems_trans (fun a mem b c => ih a mem) first second
  | dict entries ih =>
      cases b <;> cases c <;>
        simp only [same, Bool.false_eq_true, Bool.and_eq_true, beq_iff_eq] at first second ⊢
      exact ⟨first.1.trans second.1,
        sameEntries_trans (fun e mem b c => ih e mem) first.2 second.2⟩
  | float x =>
      cases b <;> cases c <;> simp only [same, Bool.false_eq_true] at first second ⊢
      exact float_beq_trans first second
  | null => cases b <;> cases c <;> simp only [same, Bool.false_eq_true] at first second ⊢
  | bool | int | str =>
      cases b <;> cases c <;>
        simp only [same, Bool.false_eq_true, beq_iff_eq] at first second ⊢
      exact first.trans second

end Value

end DataShape
