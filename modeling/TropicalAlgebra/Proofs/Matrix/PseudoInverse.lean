import TropicalAlgebra.Matrix.Arithmetic
import TropicalAlgebra.Proofs.Scalar.Binary64.Reciprocal

/-!
# Pseudo-inverses over floating-point numbers

Inverting the cells of a matrix is the one operation whose result is not checked. Negatives are
always elements again, and only zero is inverted to zero. The reciprocals of the positive numbers up
to `2 ^ (-1024)` are infinite, though: in max-times they are no elements, and in min-times they are
zero.
-/

namespace TropicalAlgebra

open Binary64

namespace Binary64

variable {a zero : Float} {edge : Int}

/-- The number `2 ^ (-1024)`, a subnormal one. -/
def tiny : Float := Float.ofBits 0x0004000000000000

/-- A positive number whose reciprocal overflows. -/
def Tiny (a : Float) : Prop := Scalar.ofInt 0 < a ∧ a ≤ tiny

instance : DecidablePred Tiny := fun a =>
  inferInstanceAs (Decidable (Scalar.ofInt 0 < a ∧ a ≤ tiny))

theorem unpacked_tiny : unpacked tiny = .finite .positive (2 ^ 50) (-1074) (by decide) := rfl

theorem levelOf_tiny : levelOf tiny = size 1 (-1024) := by
  have moved := size_mul_two_pow 1 50 (e := -1074) (by decide)
  rw [levelOf, unpacked_tiny, level, Float.Model.UnpackedFloat.Sign.apply]
  exact congrArg Nat.cast moved

theorem tiny_iff : Tiny a ↔ IsNumber a ∧ 0 < levelOf a ∧ levelOf a ≤ size 1 (-1024) := by
  have number : IsNumber tiny := by simp [IsNumber, unpacked_tiny]
  simp only [Tiny, lt_iff, le_iff, isNumber_zero, levelOf_zero, levelOf_tiny, number, true_and]
  tauto

/-- The negative of an element is one, and not zero unless the element is. -/
theorem opposite_inside (isZero : IsNumber zero) (level : levelOf zero = -edge)
    (number : IsNumber a) (inside : levelOf a ≠ edge) :
    IsNumber (Dioid.opposite zero a) ∧ levelOf (Dioid.opposite zero a) ≠ edge ∧
      (Dioid.opposite zero a == zero ↔ a == zero) := by
  unfold Dioid.opposite
  split
  next same => exact ⟨number, inside, Iff.rfl⟩
  next different =>
    have nonzero : levelOf a ≠ -edge := by
      rw [beq_iff, level] at different
      tauto
    refine ⟨isNumber_neg.mpr number, ?_, iff_of_false ?_ different⟩
    · rw [levelOf_neg]
      omega
    · rw [beq_iff, levelOf_neg, level]
      omega

end Binary64

namespace Dioid

variable {a : Float}

theorem opposite_maxPlus (ha : a ∈ (maxPlus : Dioid Float)) :
    opposite Scalar.negInfinity a ∈ (maxPlus : Dioid Float) ∧
      (opposite Scalar.negInfinity a == Scalar.negInfinity ↔ a == Scalar.negInfinity) := by
  rw [mem_maxPlus_float] at ha ⊢
  obtain ⟨number, inside, zero⟩ :=
    opposite_inside isNumber_negInfinity levelOf_negInfinity ha.1 ha.2
  exact ⟨⟨number, inside⟩, zero⟩

theorem opposite_minPlus (ha : a ∈ (minPlus : Dioid Float)) :
    opposite Scalar.infinity a ∈ (minPlus : Dioid Float) ∧
      (opposite Scalar.infinity a == Scalar.infinity ↔ a == Scalar.infinity) := by
  have level : levelOf Scalar.infinity = - -limit := levelOf_infinity.trans (Int.neg_neg _).symm
  rw [mem_minPlus_float] at ha ⊢
  obtain ⟨number, inside, zero⟩ := opposite_inside isNumber_infinity level ha.1 ha.2
  exact ⟨⟨number, inside⟩, zero⟩

theorem reciprocal_maxTimes (ha : a ∈ (maxTimes : Dioid Float)) :
    (reciprocal (Scalar.ofInt 0) a ∈ (maxTimes : Dioid Float) ↔ ¬ Tiny a) ∧
      (reciprocal (Scalar.ofInt 0) a == Scalar.ofInt 0 ↔ a == Scalar.ofInt 0) := by
  have bound := (levelOf_bounds a).2
  have inside := mem_maxTimes_float.mp ha
  have vanishes : a == Scalar.ofInt 0 ↔ levelOf a = 0 := by
    simp [beq_iff, inside.1, isNumber_zero, levelOf_zero]
  rw [reciprocal]
  split
  next zero =>
    have notTiny : ¬ Tiny a := by
      rw [tiny_iff, vanishes.mp zero]
      simp
    exact ⟨iff_of_true ha notTiny, Iff.rfl⟩
  next nonzero =>
    rw [vanishes] at nonzero
    obtain ⟨number, positive, overflow⟩ := levelOf_one_div (a := a) (by omega) (by omega)
    constructor
    · rw [mem_maxTimes_float, tiny_iff, ← overflow]
      have : 0 < levelOf a := by omega
      simp [number, positive.le, inside.1, this]
    · refine iff_of_false ?_ (mt vanishes.mp nonzero)
      rw [beq_iff, levelOf_zero]
      omega

theorem reciprocal_minTimes (ha : a ∈ (minTimes : Dioid Float)) :
    reciprocal Scalar.infinity a ∈ (minTimes : Dioid Float) ∧
      (reciprocal Scalar.infinity a == Scalar.infinity ↔ a == Scalar.infinity ∨ Tiny a) := by
  have bound := (levelOf_bounds a).2
  have inside := mem_minTimes_float.mp ha
  have vanishes : a == Scalar.infinity ↔ levelOf a = limit := by
    simp [beq_iff, inside.1, isNumber_infinity, levelOf_infinity]
  rw [reciprocal]
  split
  next zero => exact ⟨ha, iff_of_true zero (.inl zero)⟩
  next nonzero =>
    have finite := mt vanishes.mpr nonzero
    obtain ⟨number, positive, overflow⟩ := levelOf_one_div inside.2 (by omega)
    refine ⟨mem_minTimes_float.mpr ⟨number, positive⟩, ?_⟩
    rw [beq_iff, levelOf_infinity, overflow, tiny_iff]
    simp [number, isNumber_infinity, inside, nonzero]

end Dioid

namespace AlgebraName

variable {a : Float}

/-- The inverse of an element is one unless the element is tiny and the algebra is max-times. -/
theorem inv_mem_iff (n : AlgebraName) (ha : a ∈ (n.dioid : Dioid Float)) :
    (n.dioid : Dioid Float).inv a ∈ (n.dioid : Dioid Float) ↔ ¬ (n = maxTimes ∧ Tiny a) := by
  cases n with
  | maxPlus => exact iff_of_true (Dioid.opposite_maxPlus ha).1 (by simp)
  | minPlus => exact iff_of_true (Dioid.opposite_minPlus ha).1 (by simp)
  | maxTimes => exact (Dioid.reciprocal_maxTimes ha).1.trans (by simp)
  | minTimes => exact iff_of_true (Dioid.reciprocal_minTimes ha).1 (by simp)

/-- An inverse is zero only for zero itself and, in min-times, for the tiny elements. -/
theorem isZero_inv_iff (n : AlgebraName) (ha : a ∈ (n.dioid : Dioid Float)) :
    (n.dioid : Dioid Float).isZero ((n.dioid : Dioid Float).inv a) ↔
      (n.dioid : Dioid Float).isZero a ∨ n = minTimes ∧ Tiny a := by
  cases n with
  | maxPlus => exact (Dioid.opposite_maxPlus ha).2.trans (or_iff_left (by simp)).symm
  | minPlus => exact (Dioid.opposite_minPlus ha).2.trans (or_iff_left (by simp)).symm
  | maxTimes => exact (Dioid.reciprocal_maxTimes ha).2.trans (or_iff_left (by simp)).symm
  | minTimes => exact (Dioid.reciprocal_minTimes ha).2.trans (or_congr_right (by simp))

end AlgebraName

namespace Matrix

/-- Inverting the cells of a matrix of elements yields elements, and zeros for zeros only, except
that a tiny cell leaves the domain of max-times and becomes zero in min-times. -/
theorem pseudoInverse_inside (n : AlgebraName) (M : Matrix Float)
    (elements : ∀ a ∈ M.toList, a ∈ (n.dioid : Dioid Float)) (i : Fin M.rows) (j : Fin M.cols) :
    ((M.pseudoInverse n.dioid).cell j i ∈ (n.dioid : Dioid Float) ↔
        ¬ (n = .maxTimes ∧ Tiny (M.cell i j))) ∧
      ((n.dioid : Dioid Float).isZero ((M.pseudoInverse n.dioid).cell j i) ↔
        (n.dioid : Dioid Float).isZero (M.cell i j) ∨ n = .minTimes ∧ Tiny (M.cell i j)) := by
  have element := elements (M.cell i j) (mem_toList.mpr ⟨i, j, rfl⟩)
  rw [cell_pseudoInverse]
  exact ⟨n.inv_mem_iff element, n.isZero_inv_iff element⟩

/-- A tiny number and the next one, whose reciprocal is still finite. -/
def subnormals : Matrix Float := .ofVectors #v[#v[tiny], #v[Float.ofBits 0x0004000000000001]]

theorem pseudoInverse_inside_subnormals :
    ((subnormals.pseudoInverse .maxTimes).cell ⟨0, Nat.one_pos⟩ ⟨0, Nat.two_pos⟩ ∉
        (Dioid.maxTimes : Dioid Float) ∧
      (subnormals.pseudoInverse .maxTimes).cell ⟨0, Nat.one_pos⟩ ⟨1, Nat.one_lt_two⟩ ∈
        (Dioid.maxTimes : Dioid Float)) ∧
    Dioid.minTimes.isZero
      ((subnormals.pseudoInverse .minTimes).cell ⟨0, Nat.one_pos⟩ ⟨0, Nat.two_pos⟩) := by
  have elements : ∀ a ∈ subnormals.toList, a ∈ (Dioid.maxTimes : Dioid Float) := by
    decide +kernel
  have elements' : ∀ a ∈ subnormals.toList, a ∈ (Dioid.minTimes : Dioid Float) := by
    decide +kernel
  have left (i : Fin 2) := pseudoInverse_inside .maxTimes subnormals elements i ⟨0, Nat.one_pos⟩
  have right := pseudoInverse_inside .minTimes subnormals elements' ⟨0, Nat.two_pos⟩
    ⟨0, Nat.one_pos⟩
  exact ⟨⟨mt (left 0).1.mp (by decide +kernel), (left 1).1.mpr (by decide +kernel)⟩,
    right.2.mpr (by decide +kernel)⟩

/-- In max-times the inverse of an element need not be one, and in min-times that of an element
other than zero may be zero. -/
theorem pseudoInverse_not_mem_tiny :
    (tiny ∈ (Dioid.maxTimes : Dioid Float) ∧
      ((singleton tiny).pseudoInverse .maxTimes).corner ∉ (Dioid.maxTimes : Dioid Float)) ∧
    tiny ∈ (Dioid.minTimes : Dioid Float) ∧ Dioid.minTimes.isZero tiny = false ∧
      Dioid.minTimes.isZero ((singleton tiny).pseudoInverse .minTimes).corner = true := by
  decide +kernel

end Matrix

end TropicalAlgebra
