import DataShape.Decimal.Binary
import DataShape.Proofs.Decimal.Finite

/-!
# The double closest to a large integer

An integer of 64 bits has eleven bits more than the mantissa of a double, so it is rounded to a
multiple of `2^11`.  The mantissa is the number of these units (`units`), or half of it if rounding
has made it one bit longer.

Every double is a multiple of `2^11` or less than `2^63`.  So no other double is closer to the
integer, and if one is as close, then the mantissa of the double that is taken is even
(`closest_nearestInt`).
-/

namespace DataShape.Decimal

open Float.Model (Format totalExponent)
open Float.Model.UnpackedFloat

/-- The number as a fraction. -/
def Binary.toRat (b : Binary) : ℚ :=
  (if b.negative then -(b.mantissa : ℚ) else b.mantissa) * 2 ^ b.exponent

/-- Every other double is farther away from the integer, or it is as far away and the mantissa of
this one is even. -/
def Closest (i : Int) (x : Float) : Prop :=
  ∃ b, Binary.ofFloat? x = some b ∧ ∀ y c, Binary.ofFloat? y = some c → c.toRat ≠ b.toRat →
    |b.toRat - i| < |c.toRat - i| ∨ |b.toRat - i| = |c.toRat - i| ∧ b.mantissa % 2 = 0

/-! ## Doubles as numbers -/

/-- Parts are packed side by side. -/
theorem toNat_packComponents {biased m : Nat} (bound : biased < 2 ^ 11) :
    (packComponents Format.binary64 .positive (BitVec.ofNat 11 biased) (BitVec.ofNat 52 m)).toNat =
      biased * 2 ^ 52 + m % 2 ^ 52 := by
  show (0#1 ++ BitVec.ofNat 11 biased ++ BitVec.ofNat 52 m).toNat = _
  rw [BitVec.toNat_append, ← Nat.shiftLeft_add_eq_or_of_lt (BitVec.isLt _), BitVec.toNat_append,
    BitVec.toNat_ofNat, BitVec.toNat_ofNat, BitVec.toNat_ofNat, Nat.mod_eq_of_lt bound,
    Nat.shiftLeft_eq]
  simp

theorem toNat_toBits_pack {m : Nat} {e : Int} (pos : 0 < m) (normal : 2 ^ 52 ≤ m)
    (bits : m < 2 ^ 53) (least : -1074 ≤ e) (greatest : e ≤ 971) :
    (Float.ofModel (Float.Model.pack (.finite .positive m e pos))).toBits.toNat =
      (e + 1075).toNat * 2 ^ 52 + (m - 2 ^ 52) := by
  show (pack Format.binary64 (.finite .positive m e pos)).toNat = _
  have log : m.log2 + 1 = Format.binary64.mantissaBits :=
    congrArg (· + 1) ((Nat.log2_eq_iff pos.ne').2 ⟨normal, bits⟩)
  have fits : ¬ 2 ^ 11 ≤ (e + (1023 : Nat) + (52 : Nat)).toNat + 1 := by omega
  have bound : (e + (1023 : Nat) + (52 : Nat)).toNat < 2 ^ 11 := by omega
  rw [pack]
  refine (if_neg fits).symm ▸ ?_
  rw [if_pos log]
  refine (toNat_packComponents bound).trans ?_
  omega

theorem ofFloat?_pack {m : Nat} {e : Int} (pos : 0 < m) (normal : 2 ^ 52 ≤ m) (bits : m < 2 ^ 53)
    (least : -1074 ≤ e) (greatest : e ≤ 971) :
    Binary.ofFloat? (Float.ofModel (Float.Model.pack (.finite .positive m e pos))) =
      some ⟨false, m, e⟩ := by
  obtain ⟨fraction, rfl⟩ : ∃ fraction, m = fraction + 2 ^ 52 := ⟨m - 2 ^ 52, by omega⟩
  obtain ⟨biased, unbiased⟩ : ∃ biased : Nat, e = (biased : Int) + leastExponent - 1 :=
    ⟨(e + 1075).toNat, by rw [leastExponent]; omega⟩
  have range : (e + 1075).toNat = biased ∧ 1 ≤ biased ∧ biased ≤ 2046 := by
    rw [leastExponent] at unbiased
    omega
  have packed := toNat_toBits_pack pos normal bits least greatest
  rw [range.1, Nat.add_sub_cancel] at packed
  -- The three parts stand side by side, and the fraction is too small to reach the exponent.
  have sign : (biased * 2 ^ 52 + fraction) / Nat.pow 2 63 = 0 := by
    show _ / 2 ^ 63 = 0
    omega
  have exponent : (biased * 2 ^ 52 + fraction) / Nat.pow 2 52 % Nat.pow 2 11 = biased := by
    show _ / 2 ^ 52 % 2 ^ 11 = biased
    omega
  have rest : (biased * 2 ^ 52 + fraction) % Nat.pow 2 52 = fraction := by
    show _ % 2 ^ 52 = fraction
    omega
  simp only [Binary.ofFloat?, packed, sign, exponent, rest]
  rw [if_neg (by omega), if_neg (by omega), ← unbiased]
  rfl

theorem Binary.mantissa_lt {x : Float} {b : Binary} (number : Binary.ofFloat? x = some b) :
    b.mantissa < 2 ^ 53 := by
  have fraction : x.toBits.toNat % 2 ^ 52 < 2 ^ 52 := Nat.mod_lt _ (by decide)
  rw [ofFloat?] at number
  split at number
  · cases number
  · split at number
    · cases number
      exact Nat.lt_trans fraction (by decide)
    · cases number
      exact Nat.add_lt_add_right fraction (2 ^ 52)

/-- Every double is less than `2^63` or a multiple of `2^11`. -/
theorem Binary.toRat_cases {b : Binary} (bits : b.mantissa < 2 ^ 53) :
    b.toRat < 2 ^ 63 ∨ ∃ k : Int, b.toRat = 2 ^ 11 * k := by
  by_cases small : b.exponent ≤ 10
  · left
    have signed : (if b.negative then -(b.mantissa : ℚ) else b.mantissa) ≤ b.mantissa := by
      split
      · linarith [(Nat.cast_nonneg b.mantissa : (0 : ℚ) ≤ b.mantissa)]
      · exact le_refl _
    calc b.toRat ≤ b.mantissa * 2 ^ b.exponent :=
          mul_le_mul_of_nonneg_right signed (by positivity)
      _ ≤ b.mantissa * 2 ^ (10 : Int) := by
          gcongr
          norm_num
      _ < 2 ^ 53 * 2 ^ (10 : Int) := by
          gcongr
          exact_mod_cast bits
      _ = 2 ^ 63 := by norm_num
  · right
    obtain ⟨e, above⟩ := Int.eq_ofNat_of_zero_le (show 0 ≤ b.exponent - 11 by omega)
    refine ⟨(if b.negative then -(b.mantissa : Int) else b.mantissa) * 2 ^ e, ?_⟩
    have split : b.exponent = (11 : Int) + e := by omega
    rw [toRat, split, zpow_add₀ (by norm_num)]
    push_cast
    rw [zpow_natCast, mul_left_comm]
    rfl

/-! ## Rounding -/

/-- What is shifted out is kept as the last bit of it and whether there was more. -/
theorem shiftRight_exact (m k : Nat) :
    ExtendedMantissa.ofMantissaAndAccuracy m .exact >>> (k + 1) =
      ⟨m / 2 ^ (k + 1), m / 2 ^ k % 2 != 0, m % 2 ^ k != 0⟩ := by
  show (k + 1).repeat ExtendedMantissa.shiftRightOne _ = _
  induction k with
  | zero =>
      simp [Nat.repeat, ExtendedMantissa.shiftRightOne, ExtendedMantissa.ofMantissaAndAccuracy,
        Nat.mod_one]
  | succ k ih =>
      have sticky : (m / 2 ^ k % 2 != 0 || m % 2 ^ k != 0) = (m % 2 ^ (k + 1) != 0) := by
        rw [Nat.mod_pow_succ]
        rcases Nat.mod_two_eq_zero_or_one (m / 2 ^ k) with even | odd
        · simp [even]
        · simp [odd]
      rw [Nat.repeat, ih, ExtendedMantissa.shiftRightOne, sticky, Nat.div_div_eq_div_mul,
        ← Nat.pow_succ]

theorem roundedMantissa_mk (m : Nat) (round sticky : Bool) :
    (ExtendedMantissa.mk m round sticky).roundedMantissa =
      if round then if sticky then m + 1 else m + m % 2 else m := by
  cases round <;> cases sticky <;> rfl

/-- A number rounded to a multiple of `2^11`, in units of it.  A tie goes to the even one. -/
def units (n : Nat) : Nat :=
  if n / 2 ^ 10 % 2 = 0 then n / 2 ^ 11
  else if n % 2 ^ 10 = 0 then n / 2 ^ 11 + n / 2 ^ 11 % 2
  else n / 2 ^ 11 + 1

theorem units_closest (n : Nat) {k : Int} (other : k ≠ units n) :
    (2 ^ 11 * units n - n : Int).natAbs < (2 ^ 11 * k - n).natAbs ∨
      (2 ^ 11 * units n - n : Int).natAbs = (2 ^ 11 * k - n).natAbs ∧ units n % 2 = 0 := by
  unfold units at *
  split_ifs at * <;> omega

theorem units_bounds {n : Nat} (lower : 2 ^ 63 ≤ n) (upper : n < 2 ^ 64) :
    2 ^ 52 ≤ units n ∧ units n ≤ 2 ^ 53 := by
  unfold units
  split_ifs <;> omega

theorem roundedMantissa_eq_units (n : Nat) :
    (ExtendedMantissa.ofMantissaAndAccuracy (n <<< 53 * 10 ^ 0) .exact >>> 64).roundedMantissa =
      units n := by
  have high : n * 2 ^ 53 * 10 ^ 0 / 2 ^ 64 = n / 2 ^ 11 := by omega
  have half : n * 2 ^ 53 * 10 ^ 0 / 2 ^ 63 % 2 = n / 2 ^ 10 % 2 := by omega
  have low : n * 2 ^ 53 * 10 ^ 0 % 2 ^ 63 = n % 2 ^ 10 * 2 ^ 53 := by omega
  rw [shiftRight_exact _ 63, roundedMantissa_mk, Nat.shiftLeft_eq, high, half, low, units]
  simp only [bne_iff_ne]
  split_ifs <;> omega

/-- A number is shifted until 53 bits are left. -/
theorem shiftToTargetExponent_eq {m k : Nat} {e : Int} (log : m.log2 = k)
    (least : -1074 ≤ e + k - 52) :
    shiftToTargetExponent Format.binary64 m e .exact =
      (ExtendedMantissa.ofMantissaAndAccuracy m .exact >>> (k - 52), e + (k - 52 : Nat)) := by
  have target : Format.binary64.targetExponent (totalExponent m e) = e + k - 52 := by
    simp only [Format.targetExponent, totalExponent, Format.mantissaBits, Format.minExponent, log]
    omega
  have amount : (e + k - 52 - e).toNat = k - 52 := by omega
  rw [shiftToTargetExponent, target, shiftToExponent, amount]

/-- Rounding gives the units, halved if they have become too many. -/
theorem roundWithAccuracy_eq {n : Nat} (lower : 2 ^ 63 ≤ n) (upper : n < 2 ^ 64) :
    ∃ m e, ∃ pos : 0 < m,
      roundWithAccuracy Format.binary64 .positive (n <<< 53 * 10 ^ 0) (-53) .exact =
        .finite .positive m e pos ∧
      (2 ^ 52 ≤ m ∧ m < 2 ^ 53) ∧ (e = 11 ∧ units n = m ∨ e = 12 ∧ units n = 2 * m) := by
  obtain ⟨low, high⟩ := units_bounds lower upper
  have first : shiftToTargetExponent Format.binary64 (n <<< 53 * 10 ^ 0) (-53) .exact =
      (ExtendedMantissa.ofMantissaAndAccuracy (n <<< 53 * 10 ^ 0) .exact >>> 64, 11) := by
    refine shiftToTargetExponent_eq (k := 116) ?_ (by decide)
    rw [Nat.shiftLeft_eq, Nat.log2_eq_iff (by omega)]
    omega
  by_cases carry : units n = 2 ^ 53
  · have second : shiftToTargetExponent Format.binary64 (2 ^ 53) 11 .exact =
        (ExtendedMantissa.ofMantissaAndAccuracy (2 ^ 53) .exact >>> 1, 12) :=
      shiftToTargetExponent_eq (k := 53) Nat.log2_two_pow (by decide)
    refine ⟨2 ^ 52, 12, by decide, ?_, by decide, .inr ⟨rfl, by omega⟩⟩
    simp only [roundWithAccuracy, first, roundedMantissa_eq_units, carry, second]
    rfl
  · have second : shiftToTargetExponent Format.binary64 (units n) 11 .exact =
        (ExtendedMantissa.ofMantissaAndAccuracy (units n) .exact, 11) :=
      shiftToTargetExponent_eq (k := 52) ((Nat.log2_eq_iff (by omega)).2 (by omega)) (by decide)
    refine ⟨units n, 11, by omega, ?_, by omega, .inl ⟨rfl, rfl⟩⟩
    simp only [roundWithAccuracy, first, roundedMantissa_eq_units, second]
    exact dif_neg (by show units n ≠ 0; omega)

/-! ## The closest double -/

/-- The double closest to an integer that is no machine integer but fits into 64 bits. -/
theorem closest_nearestInt {i : Int} (lower : 2 ^ 63 ≤ i) (upper : i < 2 ^ 64) :
    Closest i (nearestInt i) := by
  obtain ⟨n, rfl⟩ := Int.eq_ofNat_of_zero_le (show 0 ≤ i by omega)
  obtain ⟨m, e, pos, rounded, ⟨normal, bits⟩, parts⟩ :=
    roundWithAccuracy_eq (n := n) (by omega) (by omega)
  obtain ⟨least, greatest⟩ := units_bounds (n := n) (by omega) (by omega)
  rw [nearestInt_eq_pack (by omega) (by omega), ofScientific_eq_round (by omega), rounded]
  refine ⟨⟨false, m, e⟩, ofFloat?_pack pos normal bits (by omega) (by omega),
    fun y c number other => ?_⟩
  have value : Binary.toRat ⟨false, m, e⟩ = 2 ^ 11 * ((units n : Int) : ℚ) := by
    rcases parts with ⟨rfl, units⟩ | ⟨rfl, units⟩
    · rw [units, mul_comm]
      rfl
    · rw [units, Binary.toRat, if_neg Bool.false_ne_true]
      push_cast
      norm_num
      ring
  have distance : ∀ k : Int,
      |2 ^ 11 * (k : ℚ) - (n : Int)| = ((2 ^ 11 * k - n : Int).natAbs : ℚ) := by
    intro k
    rw [Nat.cast_natAbs]
    push_cast
    rfl
  rw [value] at other ⊢
  rcases Binary.toRat_cases (Binary.mantissa_lt number) with below | ⟨k, multiple⟩
  · -- The least multiple in the range is closer than all that is below.
    left
    have near : (2 ^ 11 * units n - n : Int).natAbs ≤ n - 2 ^ 63 := by
      by_cases same : (2 ^ 52 : Int) = units n
      · omega
      · have := units_closest n same
        omega
    have near : ((2 ^ 11 * units n - n : Int).natAbs : ℚ) ≤ n - 2 ^ 63 := by
      rw [← Nat.cast_le (α := ℚ), Nat.cast_sub (by omega)] at near
      exact_mod_cast near
    rw [distance, abs_sub_comm]
    refine lt_of_le_of_lt near (lt_of_lt_of_le ?_ (le_abs_self _))
    push_cast
    linarith
  · rw [multiple] at other ⊢
    have different : k ≠ units n := by
      rintro rfl
      exact other rfl
    rw [distance, distance]
    rcases units_closest n different with closer | ⟨same, even⟩
    · exact .inl (by exact_mod_cast closer)
    · exact .inr ⟨by exact_mod_cast same, by show m % 2 = 0; omega⟩

end DataShape.Decimal
