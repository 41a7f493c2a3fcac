import Mathlib.Algebra.Order.Ring.Abs
import Mathlib.Algebra.Order.Ring.Rat
import Mathlib.Tactic.Ring
import TropicalAlgebra.Scalar.ExtendedRational

/-!
# Extended rationals as scalars

Comparisons of extended rationals, in terms of the rational numbers among them.
-/

namespace TropicalAlgebra

namespace ExtendedRational

theorem beq_iff (a b : ExtendedRational) : (a == b) = true ↔ a = b := decide_eq_true_iff

instance : LawfulBEq ExtendedRational where
  rfl := (beq_iff _ _).mpr rfl
  eq_of_beq := (beq_iff _ _).mp

theorem ofRatio_eq (m : Int) (d : Nat) :
    (Scalar.ofRatio m d : ExtendedRational) = rational (m * (d : Rat)⁻¹) := rfl

theorem rational_le_iff (p q : Rat) : rational p ≤ rational q ↔ p ≤ q := decide_eq_true_iff

theorem rational_lt_iff (p q : Rat) : rational p < rational q ↔ p < q := by
  rw [← not_le, ← rational_le_iff]
  rfl

/-! ### Negation -/

protected theorem neg_neg (a : ExtendedRational) : - -a = a := by
  cases a with
  | negInfinity => rfl
  | rational q => exact congrArg rational (by ring)
  | infinity => rfl

protected theorem neg_add (a b : ExtendedRational) : -(a + b) = -a + -b := by
  cases a <;> cases b
  case rational.rational p q => exact congrArg rational (by ring)
  all_goals rfl

protected theorem neg_le_neg_iff (a b : ExtendedRational) : -a ≤ -b ↔ b ≤ a := by
  cases a <;> cases b
  case rational.rational p q =>
    exact (rational_le_iff _ _).trans (neg_le_neg_iff.trans (rational_le_iff _ _).symm)
  all_goals exact Iff.rfl

/-! ### Closeness -/

theorem isFinite_rational (q : Rat) : Scalar.isFinite (rational q) = true := rfl

theorem magnitude_sub (p q : Rat) :
    Scalar.magnitude (rational p - rational q) = rational |p - q| := by
  have difference : rational p - rational q = rational (p - q) := congrArg rational (by ring)
  rw [difference, Scalar.magnitude]
  split
  next negative =>
    have negative : p - q < 0 := (rational_lt_iff _ _).mp negative
    rw [abs_of_neg negative]
    rfl
  next nonneg =>
    have nonneg : ¬ p - q < 0 := mt (rational_lt_iff _ _).mpr nonneg
    rw [abs_of_nonneg (not_lt.mp nonneg)]

/-- Without a tolerance only equal numbers are close. -/
theorem approxEq_zero_iff (a : ExtendedRational) (q : Rat) :
    Scalar.approxEq (rational 0) a (rational q) = true ↔ a = rational q := by
  cases a with
  | negInfinity => exact iff_of_false (by rw [Bool.not_eq_true]; rfl) nofun
  | infinity => exact iff_of_false (by rw [Bool.not_eq_true]; rfl) nofun
  | rational p =>
    rw [Scalar.approxEq, isFinite_rational, isFinite_rational, magnitude_sub, Bool.and_true,
      if_pos rfl, decide_eq_true_iff, rational_le_iff, abs_nonpos_iff, sub_eq_zero, rational.injEq]

theorem orderEq_iff (a b : ExtendedRational) : Scalar.orderEq a b = true ↔ a = b := by
  rw [Scalar.orderEq, Bool.and_eq_true, Bool.not_eq_true', Bool.not_eq_true',
    decide_eq_false_iff_not, decide_eq_false_iff_not]
  constructor
  · rintro ⟨notLess, notGreater⟩
    exact le_antisymm (not_not.mp notGreater) (not_not.mp notLess)
  · rintro rfl
    exact ⟨not_not.mpr (le_refl a), not_not.mpr (le_refl a)⟩

theorem approxEq_zero_eq_orderEq (a b : ExtendedRational) :
    Scalar.approxEq (rational 0) a b = Scalar.orderEq a b := by
  -- differences are looked at only where both numbers are finite
  have infinite (h : Scalar.isFinite b = false) :
      Scalar.approxEq (rational 0) a b = Scalar.orderEq a b := by
    simp [Scalar.approxEq, h]
  cases b with
  | rational q => rw [Bool.eq_iff_iff, orderEq_iff, approxEq_zero_iff]
  | negInfinity => exact infinite rfl
  | infinity => exact infinite rfl

end ExtendedRational

end TropicalAlgebra
