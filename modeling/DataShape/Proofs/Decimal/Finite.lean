import Mathlib
import DataShape.Decimal.Numeral

/-!
# Integers that are finite as doubles

A double is finite unless all bits of its exponent are ones, and packing writes such
an exponent only for a number whose binary exponent is large (`isFinite_pack`).
Rounding makes the binary exponent of a number larger, but by no more than the
mantissa has bits.  This crude bound is enough for integers of machine size: the
doubles closest to them are finite (`isFinite_nearestInt`).
-/

namespace DataShape.Decimal

open Float.Model (Format totalExponent)
open Float.Model.UnpackedFloat

/-! ## Packed doubles -/

/-- Only the exponent tells whether a packed number is finite. -/
theorem isFinite_unpack_iff {spec : Format} {b : BitVec spec.numBits} :
    (unpack spec b).isFinite = true ↔ unpackExponent b ≠ -1#_ := by
  rw [unpack]
  by_cases ones : unpackExponent b = -1#_
  · rw [if_pos ones]
    split <;> simp [isFinite, ones]
  · rw [if_neg ones]
    split
    · split <;> simp [isFinite, ones]
    · simp [isFinite, ones]

/-- The number is a zero, or its binary exponent is at most the bound. -/
inductive Small (bound : Int) : Float.Model.UnpackedFloat → Prop
  | zero {sign : Sign} : Small bound (.zero sign)
  | finite {sign : Sign} {mantissa : Nat} {exponent : Int} {pos : 0 < mantissa} :
      exponent ≤ bound → Small bound (.finite sign mantissa exponent pos)

theorem Small.mono {bound bound' : Int} {u : Float.Model.UnpackedFloat} (small : Small bound u)
    (le : bound ≤ bound') : Small bound' u := by
  cases small with
  | zero => exact .zero
  | finite bounded => exact .finite (Int.le_trans bounded le)

/-- An exponent below the largest one is not all ones. -/
theorem ofNat_ne_ones {b : Nat} (below : b < 2047) : BitVec.ofNat 11 b ≠ -1#11 := by
  intro ones
  have value : b % 2048 = 2047 := congrArg BitVec.toNat ones
  omega

/-- A number below the largest binary exponent is finite when it is packed. -/
theorem isFinite_pack {u : Float.Model.UnpackedFloat} (small : Small 971 u) :
    (Float.ofModel (Float.Model.pack u)).isFinite = true := by
  show (unpack Format.binary64 (pack Format.binary64 u)).isFinite = true
  rw [isFinite_unpack_iff]
  cases small with
  | zero => simp [pack, packedZero]
  | @finite sign mantissa exponent pos bounded =>
      have biased : (exponent + (1023 : Nat) + (52 : Nat)).toNat < 2047 := by omega
      have fits : ¬ 2 ^ 11 ≤ (exponent + (1023 : Nat) + (52 : Nat)).toNat + 1 := by omega
      rw [pack]
      refine (if_neg fits).symm ▸ ?_
      split
      · rw [unpackExponent_packComponents]
        exact ofNat_ne_ones biased
      · rw [unpackExponent_packComponents]
        decide

/-! ## Rounding -/

theorem mantissa_shiftRight_le (em : ExtendedMantissa) (n : Nat) :
    (em >>> n).mantissa ≤ em.mantissa := by
  show (n.repeat ExtendedMantissa.shiftRightOne em).mantissa ≤ em.mantissa
  induction n with
  | zero => exact Nat.le_refl _
  | succ n ih => exact Nat.le_trans (Nat.div_le_self _ 2) ih

theorem roundedMantissa_le (em : ExtendedMantissa) : em.roundedMantissa ≤ em.mantissa + 1 := by
  rw [ExtendedMantissa.roundedMantissa]
  generalize em.accuracy = accuracy
  cases accuracy with
  | exact => exact Nat.le_succ _
  | inexact position =>
      cases position with
      | lt => exact Nat.le_succ _
      | eq =>
          show em.mantissa + em.mantissa % 2 ≤ em.mantissa + 1
          omega
      | gt => exact Nat.le_refl _

/-- Shifting keeps a mantissa of `k` bits at `k` bits and adds at most `k` to the exponent. -/
theorem shift_bounds {mantissa k : Nat} {exponent : Int} (accuracy : Accuracy)
    (bits : mantissa < 2 ^ k) (normal : -1074 ≤ exponent) :
    let shifted := shiftToTargetExponent Format.binary64 mantissa exponent accuracy
    shifted.1.mantissa ≤ mantissa ∧ exponent ≤ shifted.2 ∧ shifted.2 ≤ exponent + k := by
  have log : mantissa.log2 ≤ k := by
    by_cases zero : mantissa = 0
    · simp [zero]
    · exact Nat.le_of_lt ((Nat.log2_lt zero).2 bits)
  simp only [shiftToTargetExponent, shiftToExponent, Format.targetExponent, totalExponent,
    Format.mantissaBits, Format.minExponent]
  refine ⟨?_, by omega, by omega⟩
  refine Nat.le_trans (mantissa_shiftRight_le _ _) ?_
  cases accuracy with
  | exact => exact Nat.le_refl _
  | inexact position => cases position <;> exact Nat.le_refl _

/-- Rounding shifts twice, and adds one to the mantissa in between. -/
theorem small_roundWithAccuracy {sign : Sign} {mantissa k : Nat} {exponent : Int}
    {accuracy : Accuracy} (bits : mantissa < 2 ^ k) (normal : -1074 ≤ exponent) :
    Small (exponent + k + (k + 1 : Nat))
      (roundWithAccuracy Format.binary64 sign mantissa exponent accuracy) := by
  obtain ⟨less, above, first⟩ := shift_bounds accuracy bits normal
  have rounded := roundedMantissa_le
    (shiftToTargetExponent Format.binary64 mantissa exponent accuracy).1
  obtain ⟨-, -, second⟩ := shift_bounds .exact
    (Nat.lt_of_le_of_lt rounded (show _ < 2 ^ (k + 1) by rw [Nat.pow_succ]; omega))
    (Int.le_trans normal above)
  simp only [roundWithAccuracy]
  split
  · exact .zero
  · exact .finite (Int.le_trans second (by omega))

/-! ## Integers -/

/-- An integer is read as a product, so its mantissa has some fifty bits more. -/
theorem ofScientific_eq_round {n : Nat} (nonzero : n ≠ 0) :
    ofScientific Format.binary64 n 0 =
      roundWithAccuracy Format.binary64 .positive (n <<< 53 * 10 ^ 0) (-53) .exact := by
  have scale : ¬ (0 : Int) < -((2 ^ Format.binary64.exponentBits : Int) + n.log2) := by
    have : (0 : Int) ≤ 2 ^ Format.binary64.exponentBits := by decide
    omega
  rw [ofScientific, dif_neg nonzero, if_neg (by decide), if_neg scale, if_pos (by decide), mul]
  rfl

theorem small_ofScientific {n : Nat} (nonzero : n ≠ 0) (bits : n < 2 ^ 64) :
    Small 971 (ofScientific Format.binary64 n 0) := by
  have bits : n <<< 53 * 10 ^ 0 < 2 ^ 117 := by
    rw [Nat.shiftLeft_eq]
    omega
  rw [ofScientific_eq_round nonzero]
  exact (small_roundWithAccuracy bits (by decide)).mono (by decide)

/-- The double of a large integer is what reading its digits gives. -/
theorem nearestInt_eq_pack {n : Nat} (lower : 2 ^ 63 ≤ n) (upper : n < 2 ^ 64) :
    nearestInt n = Float.ofModel (Float.Model.pack (ofScientific Format.binary64 n 0)) := by
  have digits : digitCount n ≤ 20 := by
    rw [digitCount, digits, Nat.length_toDigits_le_iff (by omega) (by omega)]
    omega
  have notZero : ¬ (n = 0 ∨ exponent ⟨n, 0⟩ < -400) := by
    simp only [exponent]
    omega
  have notLarge : ¬ 400 < exponent ⟨n, 0⟩ := by
    simp only [exponent]
    omega
  have notNegative : ¬ (n : Int) < 0 := by omega
  simp only [nearestInt, nearest, Int.natAbs_natCast, if_neg notZero, if_neg notLarge,
    notNegative, decide_false, Bool.false_eq_true, if_false]
  rw [Float.ofScientific, dif_neg (by omega)]
  rfl

/-- An integer of at most 64 bits is finite as a double. -/
theorem isFinite_nearestInt {i : Int} (lower : 2 ^ 63 ≤ i) (upper : i < 2 ^ 64) :
    (nearestInt i).isFinite = true := by
  obtain ⟨n, rfl⟩ := Int.eq_ofNat_of_zero_le (show 0 ≤ i by omega)
  rw [nearestInt_eq_pack (by omega) (by omega)]
  exact isFinite_pack (small_ofScientific (by omega) (by omega))

/-! ## Equality -/

/-- A finite double equals itself. -/
theorem beq_self_of_isFinite {x : Float} (finite : x.isFinite = true) : (x == x) = true := by
  show Float.Model.UnpackedFloat.beq x.toModel.unpack x.toModel.unpack = true
  change x.toModel.unpack.isFinite = true at finite
  generalize x.toModel.unpack = u at finite ⊢
  cases u with
  | infinity | notANumber => cases finite
  | zero => rfl
  | finite sign mantissa exponent pos =>
    cases sign <;> simp [Float.Model.UnpackedFloat.beq, Float.Model.UnpackedFloat.compare]

end DataShape.Decimal
