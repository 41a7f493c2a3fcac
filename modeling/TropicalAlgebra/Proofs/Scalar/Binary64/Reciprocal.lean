import TropicalAlgebra.Proofs.Dioid.Outside

/-!
# Reciprocals of binary floating-point numbers

A quotient is divided with remainder, and what the remainder says about the last unit is kept in two
further bits. Rounding it is therefore rounding an exact magnitude that has these bits. The
reciprocal of a positive finite number is a positive number. It is infinite exactly
for the numbers up to `2 ^ (-1024)`, all of which are subnormal.
-/

namespace TropicalAlgebra

namespace Binary64

open Float.Model Float.Model.UnpackedFloat

/-! ### Rounding with a remainder -/

theorem exactly_quarters_shiftRight (em : ExtendedMantissa) : exactly (quarters em) >>> 2 = em := by
  obtain ⟨m, r, s⟩ := em
  have twice : exactly (quarters ⟨m, r, s⟩) >>> 2 =
      (exactly (quarters ⟨m, r, s⟩)).shiftRightOne.shiftRightOne := rfl
  rw [twice]
  cases r <;> cases s <;>
    simp [exactly, quarters, ExtendedMantissa.shiftRightOne] <;> omega

/-- A mantissa with an accuracy, in quarters of its last unit. -/
def inQuarters (q : Nat) (a : Accuracy) : Nat :=
  quarters (ExtendedMantissa.ofMantissaAndAccuracy q a)

theorem inQuarters_bounds (q : Nat) (a : Accuracy) :
    4 * q ≤ inQuarters q a ∧ inQuarters q a ≤ 4 * q + 3 := by
  rcases a with _ | (_ | _ | _) <;>
    (simp [inQuarters, quarters, ExtendedMantissa.ofMantissaAndAccuracy]; try omega)

theorem log2_inQuarters {q : Nat} (a : Accuracy) (pos : 0 < q) :
    (inQuarters q a).log2 = q.log2 + 2 := by
  have bounds := inQuarters_bounds q a
  have low := Nat.log2_self_le pos.ne'
  have high : q < 2 ^ (q.log2 + 1) := Nat.lt_log2_self
  refine (Nat.log2_eq_iff (by omega)).mpr ⟨?_, ?_⟩
  · rw [Nat.pow_add]
    omega
  · rw [show q.log2 + 2 + 1 = q.log2 + 1 + 2 by omega, Nat.pow_add]
    omega

theorem lastUnit_inQuarters {q : Nat} {e : Int} (a : Accuracy) (pos : 0 < q) :
    lastUnit (inQuarters q a) (e - 2) = lastUnit q e := by
  rw [lastUnit_eq, lastUnit_eq, log2_inQuarters a pos]
  omega

/-- Rounding with an accuracy is rounding the exact number of quarters. -/
theorem roundWithAccuracy_eq {s : Sign} {q : Nat} {e : Int} {a : Accuracy} (pos : 0 < q)
    (high : e ≤ lastUnit q e) :
    roundWithAccuracy Format.binary64 s q e a =
      roundWithAccuracy Format.binary64 s (inQuarters q a) (e - 2) .exact := by
  have drop : (lastUnit q e - (e - 2)).toNat = 2 + (lastUnit q e - e).toNat := by omega
  have top : e - 2 + (lastUnit q e - (e - 2)).toNat = e + (lastUnit q e - e).toNat := by omega
  have same : shiftToTargetExponent Format.binary64 (inQuarters q a) (e - 2) .exact =
      shiftToTargetExponent Format.binary64 q e a := by
    rw [shiftToTargetExponent_eq, lastUnit_inQuarters a pos, top, drop, shiftRight_add, inQuarters,
      exactly_quarters_shiftRight]
    rfl
  rw [roundWithAccuracy, roundWithAccuracy, same]

theorem roundWithAccuracy_rounded {s : Sign} {q : Nat} {e : Int} (a : Accuracy) (pos : 0 < q)
    (low : -1074 ≤ e) (high : e ≤ lastUnit q e) :
    HasMagnitude (roundWithAccuracy Format.binary64 s q e a) s
      (rounded (size (inQuarters q a) (e - 2))) := by
  have bounds := inQuarters_bounds q a
  rw [roundWithAccuracy_eq pos high]
  refine roundWithAccuracy_hasMagnitude (by omega) (by omega) ?_
  rw [lastUnit_inQuarters a pos]
  omega

/-! ### The quotient of one -/

/-- The exponent with which the quotient of one by `m * 2 ^ e` is computed. -/
def quotientExponent (m : Nat) (e : Int) : Int := max (-(m.log2 + e) - 53) (-1074)

/-- The quotient of one by `m * 2 ^ e`, rounded down to a multiple of its last unit. -/
def quotientOfOne (m : Nat) (e : Int) : Nat := 2 ^ (-e - quotientExponent m e).toNat / m

section Quotient

variable {m : Nat} {e : Int}

theorem log2_le (shape : Normalized m e) (pos : 0 < m) : m.log2 ≤ 52 :=
  Nat.lt_succ_iff.mp ((Nat.log2_lt pos.ne').mpr shape.1)

theorem divCore_one (shape : Normalized m e) (pos : 0 < m) (top : e ≤ 971) :
    ∃ a, divCore Format.binary64 (2 ^ 52) (-52) m e =
      (quotientOfOne m e, quotientExponent m e, a) := by
  have log := log2_le shape pos
  have one : (2 ^ 52).log2 = 52 := Nat.log2_two_pow
  have target : Format.binary64.targetExponent (totalExponent (2 ^ 52) (-52) - totalExponent m e) =
      quotientExponent m e := by
    change max (((2 ^ 52).log2 : Int) + 1 + -52 - (m.log2 + 1 + e) - 53) (-1074) = _
    rw [one, quotientExponent]
    omega
  have least : min (-52 - e) (quotientExponent m e) = quotientExponent m e := by
    rw [quotientExponent]
    omega
  have shift : 52 + (-52 - e - quotientExponent m e).toNat = (-e - quotientExponent m e).toNat := by
    rw [quotientExponent]
    omega
  refine ⟨accuracyOfFraction (2 ^ (-e - quotientExponent m e).toNat % m) m, ?_⟩
  rw [divCore, target, least, Nat.shiftLeft_eq, ← Nat.pow_add, shift, quotientOfOne]

/-- The quotient has no more than 53 bits, unless it is the next power of two. -/
theorem quotientOfOne_le (pos : 0 < m) : quotientOfOne m e ≤ 2 ^ 53 := by
  have full := Nat.log2_self_le pos.ne'
  have shift : (-e - quotientExponent m e).toNat ≤ 53 + m.log2 := by
    rw [quotientExponent]
    omega
  refine Nat.div_le_of_le_mul ?_
  calc 2 ^ (-e - quotientExponent m e).toNat ≤ 2 ^ (53 + m.log2) :=
        Nat.pow_le_pow_right (by decide) shift
    _ = 2 ^ m.log2 * 2 ^ 53 := by rw [Nat.pow_add, Nat.mul_comm]
    _ ≤ m * 2 ^ 53 := Nat.mul_le_mul_right _ full

/-- The bits that the dividend has beyond those of `m` are left to the quotient. -/
theorem le_quotientOfOne {k : Nat} (pos : 0 < m)
    (bits : k + m.log2 + 1 ≤ (-e - quotientExponent m e).toNat) : 2 ^ k ≤ quotientOfOne m e := by
  have short : m < 2 ^ (m.log2 + 1) := Nat.lt_log2_self
  refine (Nat.le_div_iff_mul_le pos).mpr ?_
  calc 2 ^ k * m ≤ 2 ^ k * 2 ^ (m.log2 + 1) := Nat.mul_le_mul_left _ short.le
    _ = 2 ^ (k + m.log2 + 1) := by rw [← Nat.pow_add, Nat.add_assoc]
    _ ≤ _ := Nat.pow_le_pow_right (by decide) bits

theorem quotientOfOne_pos (shape : Normalized m e) (pos : 0 < m) (top : e ≤ 971) :
    0 < quotientOfOne m e := by
  have log := log2_le shape pos
  refine Nat.lt_of_lt_of_le Nat.one_pos (le_quotientOfOne (k := 0) pos ?_)
  rw [quotientExponent]
  omega

theorem quotientExponent_le_lastUnit (shape : Normalized m e) (pos : 0 < m) (top : e ≤ 971) :
    quotientExponent m e ≤ lastUnit (quotientOfOne m e) (quotientExponent m e) := by
  rw [lastUnit_eq]
  by_cases least : quotientExponent m e = -1074
  · omega
  · have exponent : quotientExponent m e = -(m.log2 + e) - 53 := by
      rw [quotientExponent] at least ⊢
      omega
    have bits : 52 ≤ (quotientOfOne m e).log2 := by
      refine (Nat.le_log2 (quotientOfOne_pos shape pos top).ne').mpr (le_quotientOfOne pos ?_)
      omega
    omega

theorem size_le_two_pow_iff (shape : Normalized m e) :
    size m e ≤ size 1 (-1024) ↔ e = -1074 ∧ m ≤ 2 ^ 50 := by
  have tiny : size (2 ^ 50) (-1074) = size 1 (-1024) := by
    simpa using size_mul_two_pow 1 50 (e := -1074) (by decide)
  rw [← tiny]
  constructor
  · intro small
    obtain ⟨-, low, normal⟩ := shape
    -- a normal mantissa has too many bits
    have short : m < 2 ^ 52 := by
      by_contra full
      exact absurd (size_lt (-1074) (by decide : 2 ^ 50 < 2 ^ 52))
        ((size_le_size (by omega) low).trans small).not_gt
    obtain rfl : e = -1074 := by omega
    exact ⟨rfl, Nat.le_of_not_lt fun more => (size_lt (-1074) more).not_ge small⟩
  · rintro ⟨rfl, few⟩
    exact size_le_size few le_rfl

theorem limit_le_quotient (pos : 0 < m) (few : m ≤ 2 ^ 50) :
    limit ≤ size (quotientOfOne m (-1074)) (quotientExponent m (-1074)) := by
  have log : m.log2 ≤ 50 := by
    have := Nat.lt_of_le_of_lt few (by decide : 2 ^ 50 < 2 ^ 51)
    exact Nat.lt_succ_iff.mp ((Nat.log2_lt pos.ne').mpr this)
  have exponent : quotientExponent m (-1074) = 1021 - m.log2 := by
    rw [quotientExponent]
    omega
  have shift : (-(-1074) - quotientExponent m (-1074)).toNat = 3 + m.log2 + 50 := by omega
  have quotient : 2 ^ (3 + m.log2) ≤ quotientOfOne m (-1074) := by
    refine (Nat.le_div_iff_mul_le pos).mpr ?_
    rw [shift, Nat.pow_add _ (3 + m.log2)]
    exact Nat.mul_le_mul_left _ few
  rw [limit_eq_size (e := quotientExponent m (-1074)) (k := 3 + m.log2) (by omega) (by omega)]
  exact size_le_size quotient le_rfl

/-- The quotient by a number above `2 ^ (-1024)` stays below the largest finite number. -/
theorem quotient_le_largest (shape : Normalized m e) (pos : 0 < m)
    (large : ¬ (e = -1074 ∧ m ≤ 2 ^ 50)) :
    size (4 * quotientOfOne m e + 3) (quotientExponent m e - 2) ≤ size (2 ^ 53 - 1) 971 := by
  have low := shape.2.1
  have bound := quotientOfOne_le (e := e) pos
  have bits {k : Nat} : 2 ^ k ≤ m → k ≤ m.log2 := (Nat.le_log2 pos.ne').mpr
  by_cases least : e = -1074 ∧ m < 2 ^ 51
  · obtain ⟨rfl, short⟩ := least
    -- the quotient by the next number after `2 ^ (-1024)` already has a smaller mantissa
    have more : 2 ^ 50 + 1 ≤ m := by omega
    have log : m.log2 = 50 := (Nat.log2_eq_iff pos.ne').mpr ⟨by omega, short⟩
    have exponent : quotientExponent m (-1074) = 971 := by
      rw [quotientExponent, log]
      decide
    have quotient : quotientOfOne m (-1074) < 2 ^ 53 - 1 := by
      rw [quotientOfOne, exponent]
      refine (Nat.div_lt_iff_lt_mul pos).mpr ?_
      exact Nat.lt_of_lt_of_le (by decide) (Nat.mul_le_mul_left (2 ^ 53 - 1) more)
    rw [exponent]
    calc size (4 * quotientOfOne m (-1074) + 3) 969 ≤ size ((2 ^ 53 - 1) * 2 ^ 2) 969 :=
          size_le_size (by omega) le_rfl
      _ = size (2 ^ 53 - 1) 971 := size_mul_two_pow _ 2 (by decide)
  · have exponent : quotientExponent m e - 2 ≤ 968 := by
      have log : -1023 ≤ m.log2 + e := by
        rcases shape.2.2 with rfl | full
        · have := bits (k := 51) (by omega)
          omega
        · have := bits full
          omega
      rw [quotientExponent]
      omega
    calc size (4 * quotientOfOne m e + 3) (quotientExponent m e - 2)
        ≤ size ((2 ^ 53 - 1) * 2 ^ 3) 968 := size_le_size (by omega) exponent
      _ = size (2 ^ 53 - 1) 971 := size_mul_two_pow _ 3 (by decide)

/-- The magnitude that is rounded to the reciprocal lies in the last unit of the quotient. -/
theorem one_div_hasMagnitude (shape : Normalized m e) (pos : 0 < m) (top : e ≤ 971) :
    ∃ n, HasMagnitude (UnpackedFloat.div Format.binary64
        (.finite .positive (2 ^ 52) (-52) (by decide)) (.finite .positive m e pos)) .positive
        (rounded n) ∧
      size (quotientOfOne m e) (quotientExponent m e) ≤ n ∧
      n ≤ size (4 * quotientOfOne m e + 3) (quotientExponent m e - 2) := by
  obtain ⟨a, divided⟩ := divCore_one shape pos top
  have least : -1074 ≤ quotientExponent m e := le_max_right _ _
  obtain ⟨low, high⟩ := inQuarters_bounds (quotientOfOne m e) a
  have positive := quotientOfOne_pos shape pos top
  have result := roundWithAccuracy_rounded (s := .positive) a positive least
    (quotientExponent_le_lastUnit shape pos top)
  refine ⟨size (inQuarters (quotientOfOne m e) a) (quotientExponent m e - 2), ?_, ?_,
    size_le_size high le_rfl⟩
  · rw [UnpackedFloat.div, divided]
    exact result
  · have moved := size_mul_two_pow (quotientOfOne m e) 2 (e := quotientExponent m e - 2) (by omega)
    rw [Nat.cast_ofNat, Int.sub_add_cancel] at moved
    rw [← moved]
    exact size_le_size (by omega) le_rfl

end Quotient

/-! ### Reciprocals of positive numbers -/

variable {a : Float}

theorem levelOf_one_div (positive : 0 < levelOf a) (finite : levelOf a < limit) :
    IsNumber (Scalar.ofInt 1 / a) ∧ 0 < levelOf (Scalar.ofInt 1 / a) ∧
      (levelOf (Scalar.ofInt 1 / a) = limit ↔ levelOf a ≤ size 1 (-1024)) := by
  rcases positive_cases positive with infinite | ⟨m, e, pos, stored⟩
  · rw [levelOf, infinite] at finite
    exact absurd finite (lt_irrefl _)
  obtain ⟨shape, top⟩ : Normalized m e ∧ e ≤ 971 := by
    have canonical := canonical_unpacked a
    rwa [stored] at canonical
  obtain ⟨n, magnitude, low, high⟩ := one_div_hasMagnitude shape pos top
  obtain ⟨g, unpackedEq, number, value⟩ := unpack_pack_hasMagnitude magnitude
  have quotient : unpacked (Scalar.ofInt 1 / a) = g := by
    rw [unpacked_div, unpacked_one, stored, unpackedEq]
  have level : levelOf (Scalar.ofInt 1 / a) = (min (rounded n) limit : Nat) := by
    rw [levelOf, quotient, value, Sign.apply]
  have own : levelOf a = size m e := by
    rw [levelOf, stored, Binary64.level, Sign.apply]
  have edge := limit_pos
  refine ⟨by rwa [IsNumber, quotient], ?_, ?_⟩
  · -- at least the least positive number is left
    have least : rounded (size 1 (-1074)) = size 1 (-1074) :=
      rounded_size ⟨by decide, by decide, .inl rfl⟩ Nat.one_pos
    have below : size 1 (-1074) ≤ n :=
      (size_le_size (quotientOfOne_pos shape pos top) (le_max_right _ _)).trans low
    have := rounded_mono below
    have := size_pos (-1074) Nat.one_pos
    omega
  · rw [level, own, Nat.cast_inj, Nat.cast_le, size_le_two_pow_iff shape]
    constructor
    · intro overflow
      by_contra large
      have below := rounded_mono (high.trans (quotient_le_largest shape pos large))
      have normal : Normalized (2 ^ 53 - 1) 971 := ⟨by decide, by decide, .inr (by decide)⟩
      rw [rounded_size normal (by decide)] at below
      have := size_lt_limit normal le_rfl
      omega
    · rintro ⟨rfl, few⟩
      have above := rounded_mono ((limit_le_quotient pos few).trans low)
      rw [rounded_limit] at above
      omega

end Binary64

end TropicalAlgebra
