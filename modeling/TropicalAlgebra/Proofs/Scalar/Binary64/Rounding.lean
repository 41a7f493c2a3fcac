import TropicalAlgebra.Proofs.Scalar.Binary64.Packing

/-!
# Rounding to nearest

A magnitude is rounded by dropping its low bits while two bits remember where the dropped part lies
in the last unit. Rounding is monotone, since every step of this is, also where the number of
dropped bits changes.
-/

namespace TropicalAlgebra

namespace Binary64

open Float.Model Float.Model.UnpackedFloat

/-! ### Dropping bits -/

/-- A mantissa of which nothing has been dropped. -/
def exactly (n : Nat) : ExtendedMantissa := ⟨n, false, false⟩

/-- The mantissa in quarters, where the last two bits say what has been dropped. -/
def quarters (em : ExtendedMantissa) : Nat :=
  4 * em.mantissa + 2 * em.roundBit.toNat + em.stickyBit.toNat

theorem shiftRight_succ (em : ExtendedMantissa) (k : Nat) :
    em >>> (k + 1) = (em >>> k).shiftRightOne := rfl

theorem shiftRight_add (em : ExtendedMantissa) (j k : Nat) : em >>> (j + k) = em >>> j >>> k := by
  induction k with
  | zero => rfl
  | succ k ih => rw [← Nat.add_assoc, shiftRight_succ, ih, shiftRight_succ]

theorem mantissa_shiftRight (em : ExtendedMantissa) (k : Nat) :
    (em >>> k).mantissa = em.mantissa / 2 ^ k := by
  induction k with
  | zero => simp [HShiftRight.hShiftRight, Nat.repeat]
  | succ k ih =>
    rw [shiftRight_succ, Nat.pow_succ, ← Nat.div_div_eq_div_mul, ← ih]
    rfl

theorem quarters_shiftRightOne (em : ExtendedMantissa) :
    quarters em.shiftRightOne = 2 * (quarters em / 4) + min 1 (quarters em % 4) := by
  obtain ⟨m, r, s⟩ := em
  have parity : (m % 2 != 0).toNat = m % 2 := by
    rcases Nat.mod_two_eq_zero_or_one m with even | odd
    · simp [even]
    · simp [odd]
  cases r <;> cases s <;>
    simp only [quarters, ExtendedMantissa.shiftRightOne, parity, Bool.toNat_false, Bool.toNat_true,
      Bool.or_false, Bool.or_true] <;>
    omega

theorem quarters_shiftRight_le {em em' : ExtendedMantissa} (order : quarters em ≤ quarters em')
    (k : Nat) : quarters (em >>> k) ≤ quarters (em' >>> k) := by
  induction k with
  | zero => exact order
  | succ k ih =>
    rw [shiftRight_succ, shiftRight_succ, quarters_shiftRightOne, quarters_shiftRightOne]
    omega

theorem roundedMantissa_eq (em : ExtendedMantissa) :
    em.roundedMantissa = quarters em / 4 +
      if quarters em % 4 = 3 then 1
      else if quarters em % 4 = 2 then quarters em / 4 % 2 else 0 := by
  obtain ⟨m, r, s⟩ := em
  cases r <;> cases s <;>
    simp only [quarters, ExtendedMantissa.roundedMantissa, ExtendedMantissa.accuracy,
      Accuracy.roundToNearestEven, Bool.toNat_false, Bool.toNat_true] <;>
    grind

theorem roundedMantissa_bounds (em : ExtendedMantissa) :
    em.mantissa ≤ em.roundedMantissa ∧ em.roundedMantissa ≤ em.mantissa + 1 := by
  have floor : quarters em / 4 = em.mantissa := by
    have round := em.roundBit.toNat_le
    have sticky := em.stickyBit.toNat_le
    rw [quarters]
    omega
  rw [roundedMantissa_eq, floor]
  grind

theorem roundedMantissa_le {em em' : ExtendedMantissa} (order : quarters em ≤ quarters em') :
    em.roundedMantissa ≤ em'.roundedMantissa := by
  rw [roundedMantissa_eq, roundedMantissa_eq]
  grind

theorem exactly_shiftRight (n k : Nat) : exactly (n * 2 ^ k) >>> k = exactly n := by
  induction k generalizing n with
  | zero => simp [HShiftRight.hShiftRight, Nat.repeat]
  | succ k ih =>
    have even : n * 2 ^ (k + 1) = n * 2 * 2 ^ k := by rw [Nat.pow_succ]; ring
    rw [even, shiftRight_succ, ih]
    simp [exactly, ExtendedMantissa.shiftRightOne]

/-- The nearest multiple of `2 ^ k`, in units of `2 ^ k`; of two that are equally near, the even
one. -/
def quotient (n k : Nat) : Nat := (exactly n >>> k).roundedMantissa

theorem quotient_le_quotient {n n' : Nat} (k : Nat) (order : n ≤ n') :
    quotient n k ≤ quotient n' k := by
  refine roundedMantissa_le (quarters_shiftRight_le ?_ k)
  simp only [quarters, exactly]
  omega

theorem quotient_bounds (n k : Nat) : n / 2 ^ k ≤ quotient n k ∧ quotient n k ≤ n / 2 ^ k + 1 := by
  have floor : (exactly n >>> k).mantissa = n / 2 ^ k := mantissa_shiftRight (exactly n) k
  rw [← floor]
  exact roundedMantissa_bounds _

theorem quotient_mul_two_pow (n j k : Nat) : quotient (n * 2 ^ j) (j + k) = quotient n k := by
  rw [quotient, shiftRight_add, exactly_shiftRight, quotient]

theorem quotient_self (n k : Nat) : quotient (n * 2 ^ k) k = n := by
  rw [quotient, exactly_shiftRight]
  rfl

/-! ### The nearest number with 53 bits -/

/-- The number of bits that a magnitude of `n` units cannot keep. The last 1074 of them lie below
the least exponent. -/
def surplus (n : Nat) : Nat := max (n.log2 - 52) 1074

/-- The magnitude that is nearest to `n` units and has a mantissa of 53 bits. -/
def rounded (n : Nat) : Nat := quotient n (surplus n) * 2 ^ surplus n

theorem surplus_mono {n n' : Nat} (order : n ≤ n') : surplus n ≤ surplus n' := by
  have log : n.log2 ≤ n'.log2 := by
    rw [Nat.log2_eq_log_two, Nat.log2_eq_log_two]
    exact Nat.log_mono_right order
  simp only [surplus]
  omega

theorem lt_two_pow_surplus (n : Nat) : n < 2 ^ 53 * 2 ^ surplus n := by
  rw [← Nat.pow_add]
  refine Nat.lt_of_lt_of_le Nat.lt_log2_self (Nat.pow_le_pow_right (by decide) ?_)
  simp only [surplus]
  omega

theorem quotient_le_two_pow (n : Nat) : quotient n (surplus n) ≤ 2 ^ 53 := by
  have bits : n / 2 ^ surplus n < 2 ^ 53 :=
    (Nat.div_lt_iff_lt_mul (Nat.two_pow_pos _)).mpr (lt_two_pow_surplus n)
  have := (quotient_bounds n (surplus n)).2
  omega

/-- Unless the bits that are dropped lie below the least exponent, 53 bits are left. -/
theorem two_pow_le_quotient {n : Nat} (normal : 1074 < surplus n) :
    2 ^ 52 ≤ quotient n (surplus n) := by
  have log : n.log2 = 52 + surplus n := by
    simp only [surplus] at normal ⊢
    omega
  have full : 2 ^ 52 * 2 ^ surplus n ≤ n := by
    rw [← Nat.pow_add, ← log]
    refine Nat.log2_self_le ?_
    rintro rfl
    simp [surplus] at normal
  have floor : 2 ^ 52 ≤ n / 2 ^ surplus n :=
    (Nat.le_div_iff_mul_le (Nat.two_pow_pos _)).mpr full
  exact Nat.le_trans floor (quotient_bounds n (surplus n)).1

theorem rounded_mono {n n' : Nat} (order : n ≤ n') : rounded n ≤ rounded n' := by
  rcases Nat.eq_or_lt_of_le (surplus_mono order) with same | more
  · rw [rounded, rounded, same]
    exact Nat.mul_le_mul_right _ (quotient_le_quotient _ order)
  · -- the larger number has a larger last unit, so it lies beyond a power of two
    have normal : 1074 < surplus n' := by
      have : 1074 ≤ surplus n := Nat.le_max_right _ _
      omega
    calc rounded n ≤ 2 ^ 53 * 2 ^ surplus n := Nat.mul_le_mul_right _ (quotient_le_two_pow n)
      _ = 2 ^ 52 * 2 ^ (surplus n + 1) := by rw [Nat.pow_succ]; ring
      _ ≤ quotient n' (surplus n') * 2 ^ surplus n' :=
          Nat.mul_le_mul (two_pow_le_quotient normal) (Nat.pow_le_pow_right (by decide) more)

theorem rounded_zero : rounded 0 = 0 := by
  have none : quotient 0 (surplus 0) = 0 := by simpa using quotient_self 0 (surplus 0)
  rw [rounded, none, Nat.zero_mul]

end Binary64

end TropicalAlgebra
