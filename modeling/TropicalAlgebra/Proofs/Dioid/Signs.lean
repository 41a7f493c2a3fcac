import TropicalAlgebra.Proofs.Dioid.Alike
import TropicalAlgebra.Proofs.Dioid.Binary64
import TropicalAlgebra.Proofs.Scalar.Binary64.Signs

/-!
# Max-plus and min-plus under a change of sign

The operations and tests of max-plus on some numbers are those of min-plus on their negatives. Each
of the two computes alike on numbers that differ in the sign of zero only.
-/

namespace TropicalAlgebra

open Binary64 Float.Model.UnpackedFloat

namespace Binary64.Turned

variable {a a' b b' : Float} {s : Sign}

/-! ### Comparisons -/

theorem beq (h : Turned s a a') (k : Turned s b b') : (a == b) = (a' == b') := by
  have level : levelOf a = levelOf b ↔ levelOf a' = levelOf b' := by
    rw [h.level, k.level]
    cases s
    · exact neg_inj.symm
    · exact Iff.rfl
  rw [Bool.eq_iff_iff, beq_iff, beq_iff, h.isNumber, k.isNumber, level]

theorem lt_iff (h : Turned .positive a a') (k : Turned .positive b b') : a < b ↔ a' < b' := by
  rw [Binary64.lt_iff, Binary64.lt_iff, h.isNumber, k.isNumber, h.level, k.level]
  rfl

theorem le_iff (h : Turned .positive a a') (k : Turned .positive b b') : a ≤ b ↔ a' ≤ b' := by
  rw [Binary64.le_iff, Binary64.le_iff, h.isNumber, k.isNumber, h.level, k.level]
  rfl

theorem lt_iff_gt (h : Turned .negative a a') (k : Turned .negative b b') : a < b ↔ b' < a' := by
  rw [Binary64.lt_iff, Binary64.lt_iff, h.isNumber, k.isNumber, h.level, k.level]
  simp only [Sign.apply, neg_lt_neg_iff]
  tauto

theorem le_iff_ge (h : Turned .negative a a') (k : Turned .negative b b') : a ≤ b ↔ b' ≤ a' := by
  rw [Binary64.le_iff, Binary64.le_iff, h.isNumber, k.isNumber, h.level, k.level]
  simp only [Sign.apply, neg_le_neg_iff]
  tauto

theorem orderEq (h : Turned s a a') (k : Turned s b b') :
    Scalar.orderEq a b = Scalar.orderEq a' b' := by
  unfold Scalar.orderEq
  cases s with
  | negative => simp only [h.lt_iff_gt k, k.lt_iff_gt h, Bool.and_comm]
  | positive => simp only [h.lt_iff k, k.lt_iff h]

theorem isFinite (h : Turned s a a') : Scalar.isFinite a = Scalar.isFinite a' := by
  have inside :
      -limit < levelOf a ∧ levelOf a < limit ↔ -limit < levelOf a' ∧ levelOf a' < limit := by
    rw [h.level]
    cases s <;> simp only [Sign.apply]
    omega
  rw [Bool.eq_iff_iff, isFinite_iff, isFinite_iff, h.isNumber, inside]

theorem refl (a : Float) : Turned .positive a a := ⟨Iff.rfl, rfl⟩

theorem levelOf_magnitude (a : Float) : levelOf (Scalar.magnitude a) = |levelOf a| := by
  by_cases number : IsNumber a
  · have negative : a < Scalar.ofInt 0 ↔ levelOf a < 0 := by
      simp [Binary64.lt_iff, number, isNumber_zero, levelOf_zero]
    unfold Scalar.magnitude
    split
    next below => rw [levelOf_neg, abs_of_neg (negative.mp below)]
    next above => rw [abs_of_nonneg (not_lt.mp (mt negative.mpr above))]
  · have above : ¬ a < Scalar.ofInt 0 := fun below => number (Binary64.lt_iff.mp below).1
    rw [Scalar.magnitude, if_neg above, levelOf_of_not_isNumber number, abs_zero]

theorem isNumber_magnitude (a : Float) : IsNumber (Scalar.magnitude a) ↔ IsNumber a := by
  unfold Scalar.magnitude
  split
  · exact isNumber_neg
  · exact Iff.rfl

theorem magnitude (h : Turned s a a') :
    Turned .positive (Scalar.magnitude a) (Scalar.magnitude a') where
  isNumber := (isNumber_magnitude a).trans (h.isNumber.trans (isNumber_magnitude a').symm)
  level := by
    rw [levelOf_magnitude, levelOf_magnitude, h.level]
    cases s
    · exact abs_neg _
    · rfl

theorem approxEq (tolerance : Float) (h : Turned s a a') (k : Turned s b b') :
    Scalar.approxEq tolerance a b = Scalar.approxEq tolerance a' b' := by
  have near : (Scalar.magnitude (a - b) ≤ tolerance) ↔ Scalar.magnitude (a' - b') ≤ tolerance :=
    (h.sub k).magnitude.le_iff (refl tolerance)
  unfold Scalar.approxEq
  simp only [h.isFinite, k.isFinite, near, h.orderEq k]

/-! ### Sums and inverses -/

theorem larger (h : Turned .positive a a') (k : Turned .positive b b') :
    Turned .positive (Dioid.larger a b) (Dioid.larger a' b') := by
  unfold Dioid.larger
  simp only [k.le_iff h]
  split
  · exact h
  · exact k

theorem smaller (h : Turned .positive a a') (k : Turned .positive b b') :
    Turned .positive (Dioid.smaller a b) (Dioid.smaller a' b') := by
  unfold Dioid.smaller
  simp only [h.le_iff k]
  split
  · exact h
  · exact k

theorem larger_smaller (h : Turned .negative a a') (k : Turned .negative b b') :
    Turned .negative (Dioid.larger a b) (Dioid.smaller a' b') := by
  unfold Dioid.larger Dioid.smaller
  simp only [k.le_iff_ge h]
  split
  · exact h
  · exact k

theorem opposite {zero zero' : Float} (zeros : Turned s zero zero') (h : Turned s a a') :
    Turned s (Dioid.opposite zero a) (Dioid.opposite zero' a') := by
  unfold Dioid.opposite
  rw [h.beq zeros]
  split
  · exact h
  · exact h.neg

theorem infinity : Turned .negative Scalar.negInfinity Scalar.infinity where
  isNumber := iff_of_true isNumber_negInfinity isNumber_infinity
  level := by
    rw [levelOf_infinity, levelOf_negInfinity]
    exact (Int.neg_neg _).symm

theorem zero (s : Sign) : Turned s (Scalar.ofInt 0) (Scalar.ofInt 0) where
  isNumber := Iff.rfl
  level := by
    rw [levelOf_zero]
    cases s <;> rfl

end Binary64.Turned

/-- Inverses keep away from the infinity that is not the zero of the dioid. -/
theorem Binary64.levelOf_opposite_ne {zero a : Float} {edge : Int} (isZero : IsNumber zero)
    (level : levelOf zero = -edge) (number : IsNumber a) (inside : levelOf a ≠ edge) :
    IsNumber (Dioid.opposite zero a) ∧ levelOf (Dioid.opposite zero a) ≠ edge := by
  unfold Dioid.opposite
  split
  next => exact ⟨number, inside⟩
  next nonzero =>
    have away : levelOf a ≠ -edge := fun same =>
      nonzero (beq_iff.mpr ⟨number, isZero, same.trans level.symm⟩)
    rw [isNumber_neg, levelOf_neg]
    exact ⟨number, by omega⟩

namespace Dioid

/-- Max-plus does not tell zeros of different sign apart. -/
theorem alike_maxPlus : Alike (Turned .positive) (maxPlus : Dioid Float) maxPlus where
  zero := Turned.refl _
  one := Turned.refl _
  one_mem := one_mem_maxPlus
  add := Turned.larger
  mul := Turned.add
  rawPow p h := h.mul p
  inv := Turned.opposite (Turned.refl _)
  mem_iff h := by
    rw [mem_maxPlus_float, mem_maxPlus_float, h.isNumber, h.level]
    rfl
  beq := Turned.beq
  orderEq := Turned.orderEq
  approxEq := Turned.approxEq

theorem alike_minPlus : Alike (Turned .positive) (minPlus : Dioid Float) minPlus where
  zero := Turned.refl _
  one := Turned.refl _
  one_mem := one_mem_minPlus
  add := Turned.smaller
  mul := Turned.add
  rawPow p h := h.mul p
  inv := Turned.opposite (Turned.refl _)
  mem_iff h := by
    rw [mem_minPlus_float, mem_minPlus_float, h.isNumber, h.level]
    rfl
  beq := Turned.beq
  orderEq := Turned.orderEq
  approxEq := Turned.approxEq

/-- Min-plus computes with the negatives of the numbers that max-plus computes with. -/
theorem alike_dual : Alike (Turned .negative) (maxPlus : Dioid Float) minPlus where
  zero := Turned.infinity
  one := Turned.zero _
  one_mem := one_mem_maxPlus
  add := Turned.larger_smaller
  mul := Turned.add
  rawPow p h := h.mul p
  inv := Turned.opposite Turned.infinity
  mem_iff h := by
    rw [mem_maxPlus_float, mem_minPlus_float, h.isNumber, h.level]
    simp [Sign.apply]
  beq := Turned.beq
  orderEq := Turned.orderEq
  approxEq := Turned.approxEq

end Dioid

end TropicalAlgebra
