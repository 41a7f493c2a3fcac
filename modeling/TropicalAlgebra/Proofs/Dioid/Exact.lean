import Mathlib.Algebra.Order.Ring.Abs
import Mathlib.Tactic.NormNum
import Mathlib.Tactic.Ring
import TropicalAlgebra.Dioid.Tropical
import TropicalAlgebra.Proofs.Dioid.Height
import TropicalAlgebra.Proofs.Dioid.Lawful
import TropicalAlgebra.Proofs.Scalar.ExtendedRational

/-!
# The exact tropical dioids

Max-plus and min-plus over the extended rationals have the same elements in two orders: a zero and
the rational numbers. A chart gives each element its height and hides which of the two orders is
meant.
-/

namespace TropicalAlgebra

open ExtendedRational

namespace Dioid

/-- Max-plus and min-plus without rounding. -/
inductive IsExact : Dioid ExtendedRational → Prop where
  | maxPlus : IsExact .maxPlus
  | minPlus : IsExact .minPlus

/-- The heights of the elements of an exact dioid. A rational number has the height of itself or of
its negative, as `sign` says. -/
structure Chart (d : Dioid ExtendedRational) extends d.Valuation Height where
  sign : Rat
  sign_cases : sign = 1 ∨ sign = -1
  rational_mem : ∀ q, rational q ∈ d
  value_rational : ∀ q, value (rational q) = Height.exp (sign * q)
  zero_or_rational : ∀ {a}, a ∈ d → a = d.zero ∨ ∃ q, a = rational q
  one_eq : d.one = rational 0
  inv_zero_eq : d.inv d.zero = d.zero
  inv_rational : ∀ q, d.inv (rational q) = rational (-q)
  rawPow_rational : ∀ q p, d.rawPow (rational q) (rational p) = rational (q * p)

namespace Chart

/-! ### Max-plus -/

/-- The height of a rational number, and zero for the infinities. -/
def height : ExtendedRational → Height
  | rational q => Height.exp q
  | _ => 0

theorem mem_maxPlus {a : ExtendedRational} :
    a ∈ (maxPlus : Dioid ExtendedRational) ↔ a ≠ infinity := by
  rw [mem_iff_contains]
  cases a <;> simp [maxPlus, Scalar.isNumber, Scalar.infinity]

private theorem cases_of_mem_maxPlus {a : ExtendedRational}
    (h : a ∈ (maxPlus : Dioid ExtendedRational)) : a = negInfinity ∨ ∃ q, a = rational q := by
  rw [mem_maxPlus] at h
  cases a with
  | negInfinity => exact Or.inl rfl
  | rational q => exact Or.inr ⟨q, rfl⟩
  | infinity => exact absurd rfl h

private theorem height_larger (p q : Rat) :
    height (larger (rational p) (rational q)) = height (rational p) + height (rational q) := by
  unfold larger
  split
  next le =>
    rw [rational_le_iff] at le
    exact (max_eq_left (Height.exp_le_exp.mpr le)).symm
  next gt =>
    rw [rational_le_iff, not_le] at gt
    exact (max_eq_right (Height.exp_le_exp.mpr gt.le)).symm

/-- Max-plus in the order of the rational numbers. -/
def ofMaxPlus : Chart .maxPlus where
  value := height
  zero_mem := mem_maxPlus.mpr nofun
  one_mem := mem_maxPlus.mpr nofun
  add_mem {a b} ha hb := by
    change larger a b ∈ _
    unfold larger
    split
    · exact ha
    · exact hb
  mul_mem ha hb := by
    rw [mem_maxPlus]
    rcases cases_of_mem_maxPlus ha with rfl | ⟨p, rfl⟩ <;>
      rcases cases_of_mem_maxPlus hb with rfl | ⟨q, rfl⟩ <;> exact nofun
  value_zero := rfl
  value_one := Height.exp_zero
  value_add ha hb := by
    rcases cases_of_mem_maxPlus ha with rfl | ⟨p, rfl⟩ <;>
      rcases cases_of_mem_maxPlus hb with rfl | ⟨q, rfl⟩
    · rfl
    · exact (zero_add _).symm
    · exact (add_zero _).symm
    · exact height_larger p q
  value_mul ha hb := by
    rcases cases_of_mem_maxPlus ha with rfl | ⟨p, rfl⟩ <;>
      rcases cases_of_mem_maxPlus hb with rfl | ⟨q, rfl⟩
    · exact (mul_zero _).symm
    · exact (zero_mul _).symm
    · exact (mul_zero _).symm
    · exact Height.exp_add p q
  -- the infinities share a height, but only one of them is an element
  beq_iff ha hb := by
    rw [ExtendedRational.beq_iff]
    rcases cases_of_mem_maxPlus ha with rfl | ⟨p, rfl⟩ <;>
      rcases cases_of_mem_maxPlus hb with rfl | ⟨q, rfl⟩
    · simp
    · simp [height, (Height.exp_ne_zero _).symm]
    · simp [height]
    · simp [height]
  sign := 1
  sign_cases := Or.inl rfl
  rational_mem _ := mem_maxPlus.mpr nofun
  value_rational q := congrArg Height.exp (one_mul q).symm
  zero_or_rational := cases_of_mem_maxPlus
  one_eq := rfl
  inv_zero_eq := rfl
  inv_rational _ := rfl
  rawPow_rational _ _ := rfl

/-! ### Min-plus

Negation takes the sums, the products and the elements of min-plus to those of max-plus. -/

theorem neg_smaller (a b : ExtendedRational) : -smaller a b = larger (-a) (-b) := by
  by_cases h : a ≤ b <;> simp [smaller, larger, ExtendedRational.neg_le_neg_iff, h]

theorem neg_mem_maxPlus_iff {a : ExtendedRational} :
    -a ∈ (maxPlus : Dioid ExtendedRational) ↔ a ∈ (minPlus : Dioid ExtendedRational) := by
  rw [mem_iff_contains, mem_iff_contains]
  cases a <;> simp [maxPlus, minPlus, Scalar.isNumber, Scalar.negInfinity, Scalar.infinity, Neg.neg,
    neg]

/-- Min-plus in the opposite order of the rational numbers. -/
def ofMinPlus : Chart .minPlus where
  value a := ofMaxPlus.value (-a)
  zero_mem := neg_mem_maxPlus_iff.mp ofMaxPlus.zero_mem
  one_mem := neg_mem_maxPlus_iff.mp ofMaxPlus.one_mem
  add_mem {a b} ha hb := by
    rw [← neg_mem_maxPlus_iff] at ha hb ⊢
    exact (neg_smaller a b).symm ▸ ofMaxPlus.add_mem ha hb
  mul_mem {a b} ha hb := by
    rw [← neg_mem_maxPlus_iff] at ha hb ⊢
    exact (ExtendedRational.neg_add a b).symm ▸ ofMaxPlus.mul_mem ha hb
  value_zero := ofMaxPlus.value_zero
  value_one := ofMaxPlus.value_one
  value_add {a b} ha hb := by
    rw [← neg_mem_maxPlus_iff] at ha hb
    exact (congrArg _ (neg_smaller a b)).trans (ofMaxPlus.value_add ha hb)
  value_mul {a b} ha hb := by
    rw [← neg_mem_maxPlus_iff] at ha hb
    exact (congrArg _ (ExtendedRational.neg_add a b)).trans (ofMaxPlus.value_mul ha hb)
  beq_iff {a b} ha hb := by
    rw [← neg_mem_maxPlus_iff] at ha hb
    rw [← ofMaxPlus.beq_iff ha hb, ExtendedRational.beq_iff, ExtendedRational.beq_iff]
    exact ⟨congrArg _, fun same => by
      rw [← ExtendedRational.neg_neg a, same, ExtendedRational.neg_neg]⟩
  sign := -1
  sign_cases := Or.inr rfl
  rational_mem q := neg_mem_maxPlus_iff.mp (ofMaxPlus.rational_mem (-q))
  value_rational q := congrArg Height.exp (neg_one_mul q).symm
  zero_or_rational {a} ha := by
    rw [← ExtendedRational.neg_neg a]
    refine (ofMaxPlus.zero_or_rational (neg_mem_maxPlus_iff.mpr ha)).imp (congrArg _) ?_
    rintro ⟨q, same⟩
    exact ⟨-q, congrArg _ same⟩
  one_eq := rfl
  inv_zero_eq := rfl
  inv_rational _ := rfl
  rawPow_rational _ _ := rfl

theorem nonempty {d : Dioid ExtendedRational} (exact : d.IsExact) : Nonempty (Chart d) := by
  cases exact with
  | maxPlus => exact ⟨ofMaxPlus⟩
  | minPlus => exact ⟨ofMinPlus⟩

theorem lawful {d : Dioid ExtendedRational} (exact : d.IsExact) : d.Lawful := by
  obtain ⟨χ⟩ := nonempty exact
  exact χ.toValuation.lawful Height.add_selects zero_ne_one

/-! ### Elements and heights -/

variable {d : Dioid ExtendedRational} (χ : d.Chart)

theorem value_eq_iff {a b : ExtendedRational} (ha : a ∈ d) (hb : b ∈ d) :
    χ.value a = χ.value b ↔ a = b := by
  rw [← χ.beq_iff ha hb, ExtendedRational.beq_iff]

include χ in
theorem cancellative : d.Cancellative := by
  intro a b c ha hb hc nonzero equal
  rw [χ.beq_iff (χ.mul_mem ha hb) (χ.mul_mem ha hc), χ.value_mul ha hb, χ.value_mul ha hc] at equal
  rw [χ.beq_iff ha χ.zero_mem, χ.value_zero] at nonzero
  exact (χ.beq_iff hb hc).mpr (mul_left_cancel₀ nonzero equal)

theorem value_eq_zero_iff {a : ExtendedRational} (ha : a ∈ d) : χ.value a = 0 ↔ a = d.zero := by
  rw [← χ.value_zero, χ.value_eq_iff ha χ.zero_mem]

theorem isZero_iff_eq (a : ExtendedRational) : d.isZero a = true ↔ a = d.zero :=
  ExtendedRational.beq_iff a d.zero

include χ in
theorem rational_ne_zero (q : Rat) : rational q ≠ d.zero := by
  rw [Ne, ← χ.value_eq_zero_iff (χ.rational_mem q), χ.value_rational]
  exact Height.exp_ne_zero _

theorem dominates_iff_lt {a b : ExtendedRational} (ha : a ∈ d) (hb : b ∈ d) :
    d.dominates a b = true ↔ χ.value b < χ.value a := by
  rw [χ.dominates_iff ha hb, Height.add_eq_max, max_eq_left_iff, lt_iff_le_and_ne]
  exact ⟨fun ⟨distinct, le⟩ => ⟨le, distinct.symm⟩, fun ⟨le, distinct⟩ => ⟨distinct.symm, le⟩⟩

theorem value_inv {a : ExtendedRational} (ha : a ∈ d) :
    d.inv a ∈ d ∧ χ.value (d.inv a) = (χ.value a)⁻¹ := by
  rcases χ.zero_or_rational ha with rfl | ⟨q, rfl⟩
  · rw [χ.inv_zero_eq, χ.value_zero, inv_zero]
    exact ⟨ha, rfl⟩
  · rw [χ.inv_rational, χ.value_rational, χ.value_rational, mul_neg, Height.exp_neg]
    exact ⟨χ.rational_mem _, rfl⟩

theorem exists_rational {a : ExtendedRational} (ha : a ∈ d) (nonzero : χ.value a ≠ 0) :
    ∃ q, a = rational q ∧ χ.value a = Height.exp (χ.sign * q) := by
  rcases χ.zero_or_rational ha with rfl | ⟨q, rfl⟩
  · exact absurd χ.value_zero nonzero
  · exact ⟨q, rfl, χ.value_rational q⟩

theorem abs_sign_mul (q : Rat) : |χ.sign * q| = |q| := by
  rcases χ.sign_cases with h | h <;> simp [h]

include χ in
theorem pow_rational (q p : Rat) : d.pow (rational q) (rational p) = .ok (rational (q * p)) := by
  have nonzero : d.isZero (rational q) = false := by
    rw [← Bool.not_eq_true, isZero_iff_eq]
    exact χ.rational_ne_zero q
  simp only [pow, element_of_mem (χ.rational_mem q), bind, Except.bind, nonzero,
    Bool.false_eq_true, if_false, χ.rawPow_rational]
  exact element_of_mem (χ.rational_mem _)

/-- Square roots exist in an exact dioid. -/
theorem exists_sqrt {a : ExtendedRational} (ha : a ∈ d) :
    ∃ h, d.pow a (Scalar.ofRatio 1 2) = .ok h ∧ h ∈ d ∧ χ.value h * χ.value h = χ.value a := by
  rw [ofRatio_eq]
  rcases χ.zero_or_rational ha with rfl | ⟨q, rfl⟩
  -- zero has positive powers, which are zero; a rational number is halved
  · have above : (Scalar.ofInt 0 : ExtendedRational) <
        rational (((1 : Int) : Rat) * ((2 : Nat) : Rat)⁻¹) :=
      (rational_lt_iff _ _).mpr (by norm_num)
    refine ⟨d.zero, ?_, χ.zero_mem, by rw [χ.value_zero, mul_zero]⟩
    simp only [pow, element_of_mem ha, bind, Except.bind, (isZero_iff_eq d.zero).mpr rfl, if_true,
      if_pos above]
  · refine ⟨_, χ.pow_rational q _, χ.rational_mem _, ?_⟩
    rw [χ.value_rational, χ.value_rational, ← Height.exp_add]
    congr 1
    push_cast
    ring

end Chart

end Dioid

end TropicalAlgebra
