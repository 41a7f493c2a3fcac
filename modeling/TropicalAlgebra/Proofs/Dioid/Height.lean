import Mathlib.Algebra.Order.GroupWithZero.Canonical
import Mathlib.Algebra.Order.Kleene
import Mathlib.Algebra.Order.Ring.Rat
import Mathlib.Tactic.Linarith
import TropicalAlgebra.Proofs.Walks

/-!
# Heights

The values of the exact tropical dioids. A height is zero or `exp q` for a rational number `q`, so
that the tropical product is a product and the tropical inverse an inverse; the tropical sum is the
maximum. Heights form both a linearly ordered group with zero and an idempotent semiring.
-/

namespace TropicalAlgebra

/-- The rational numbers in multiplicative writing, with a zero below them. -/
def Height : Type := WithZero (Multiplicative Rat)

namespace Height

instance : LinearOrderedCommGroupWithZero Height :=
  inferInstanceAs (LinearOrderedCommGroupWithZero (WithZero (Multiplicative Rat)))

instance : Add Height := ⟨max⟩

theorem add_eq_max (x y : Height) : x + y = max x y := rfl

instance : IdemCommSemiring Height where
  __ := (inferInstance : CommMonoidWithZero Height)
  __ := (inferInstance : SemilatticeSup Height)
  __ := (inferInstance : OrderBot Height)
  add_assoc := max_assoc
  zero_add _ := max_eq_right zero_le
  add_zero _ := max_eq_left zero_le
  add_comm := max_comm
  nsmul := nsmulRec
  left_distrib := mul_max
  right_distrib := max_mul
  add_eq_sup _ _ := rfl

theorem add_selects (x y : Height) : x + y = x ∨ x + y = y := max_choice x y

/-- The height of a rational number. -/
def exp (q : Rat) : Height := WithZero.exp q

@[simp] theorem exp_ne_zero (q : Rat) : exp q ≠ 0 := WithZero.exp_ne_zero

theorem exp_zero : exp 0 = 1 := rfl

theorem exp_add (p q : Rat) : exp (p + q) = exp p * exp q := rfl

theorem exp_neg (q : Rat) : exp (-q) = (exp q)⁻¹ := rfl

theorem exp_pow (q : Rat) (k : Nat) : exp q ^ k = exp (k * q) := by
  rw [← nsmul_eq_mul]
  exact (WithZero.exp_nsmul k q).symm

@[simp] theorem exp_le_exp {p q : Rat} : exp p ≤ exp q ↔ p ≤ q := WithZero.exp_le_exp

@[simp] theorem exp_inj {p q : Rat} : exp p = exp q ↔ p = q := WithZero.exp_inj

theorem eq_zero_or_exp (x : Height) : x = 0 ∨ ∃ q, x = exp q := by
  by_cases h : x = 0
  · exact Or.inl h
  · exact Or.inr ⟨WithZero.log x, (WithZero.exp_log h).symm⟩

/-- Square roots are unique. -/
theorem eq_of_mul_self_eq {x y : Height} (same : x * x = y * y) : x = y := by
  rcases eq_zero_or_exp x with rfl | ⟨p, rfl⟩ <;> rcases eq_zero_or_exp y with rfl | ⟨q, rfl⟩
  · rfl
  · simp at same
  · simp at same
  · rw [← exp_add, ← exp_add, exp_inj] at same
    rw [exp_inj]
    linarith

/-- There is no least height above zero, not even among powers. -/
theorem eq_zero_of_le_pow {x : Height} {k : Nat} (pos : k ≠ 0) (bound : ∀ t ≠ 0, x ≤ t ^ k) :
    x = 0 := by
  rcases eq_zero_or_exp x with rfl | ⟨q, rfl⟩
  · rfl
  · have positive : (0 : Rat) < k := Nat.cast_pos.mpr (Nat.pos_of_ne_zero pos)
    have small := bound (exp (q / k - 1)) (exp_ne_zero _)
    rw [exp_pow, exp_le_exp, mul_sub, mul_div_cancel₀ q positive.ne'] at small
    linarith

/-- A sum of heights is the largest of them. -/
theorem exists_sum_eq {n : Nat} (pos : 0 < n) (f : Fin n → Height) : ∃ i, ∑ j, f j = f i := by
  have nonempty : (Finset.univ : Finset (Fin n)).Nonempty := ⟨⟨0, pos⟩, Finset.mem_univ _⟩
  obtain ⟨i, _, largest⟩ := Finset.exists_max_image Finset.univ f nonempty
  refine ⟨i, le_antisymm ?_ ?_⟩
  · exact (WeightMatrix.sum_le _ _).mpr largest
  · exact WeightMatrix.le_sum f (Finset.mem_univ i)

end Height

end TropicalAlgebra
