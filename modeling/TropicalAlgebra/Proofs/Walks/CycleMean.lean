import Mathlib.Algebra.BigOperators.Fin
import TropicalAlgebra.Proofs.Dioid.Height
import TropicalAlgebra.Proofs.Walks.Equations

/-!
# Cycle means

The best mean weight of an edge over all closed walks is already found among those with at most `n`
edges. The weights are divided by that mean; then no short closed walk gains, and hence no closed
walk at all.
-/

namespace WeightMatrix

section Scaling

variable {n : Nat} {β : Type} [IdemCommSemiring β] {F : WeightMatrix n β}

/-- If closed walks with at most `n` edges weigh at most `r` for each edge, then so do all. -/
theorem pow_diagonal_le_pow {c r : β} (inverse : c * r = 1)
    (bound : ∀ k < n, ∀ i, (F ^ (k + 1)) i i ≤ r ^ (k + 1)) (k : Nat) (i : Fin n) :
    (F ^ k) i i ≤ r ^ k := by
  have cancel (k : Nat) : c ^ k * r ^ k = 1 := by rw [← mul_pow, inverse, one_pow]
  -- in the graph with all edges divided by `r` no closed walk gains
  have noGain : WeightMatrix.NoGain (c • F) := by
    intro k less i
    rw [smul_pow, Matrix.smul_apply, smul_eq_mul]
    exact (mul_le_mul_right (bound k less i) _).trans_eq (cancel (k + 1))
  have scaled := noGain.pow_diagonal_le_one k i
  rw [smul_pow, Matrix.smul_apply, smul_eq_mul] at scaled
  calc (F ^ k) i i = c ^ k * (F ^ k) i i * r ^ k := by rw [mul_right_comm, cancel, one_mul]
    _ ≤ 1 * r ^ k := mul_le_mul_left scaled _
    _ = r ^ k := one_mul _

end Scaling

open TropicalAlgebra (Height)

variable {n : Nat} {F : WeightMatrix n Height}

/-- Some walk has the weight that a power holds. -/
theorem exists_weight_eq {k : Nat} {i j : Fin n} (nonzero : (F ^ k) i j ≠ 0) :
    ∃ v : Nat → Fin n, v 0 = i ∧ v k = j ∧ weight F v 0 k = (F ^ k) i j := by
  induction k generalizing j with
  | zero =>
    have same : i = j := by
      by_contra distinct
      exact nonzero (by rw [pow_zero, Matrix.one_apply_ne distinct])
    exact ⟨fun _ => i, rfl, same, by simp [weight, same]⟩
  | succ k ih =>
    -- the best last edge is attained, and the walk before it by induction
    obtain ⟨l, largest⟩ := Height.exists_sum_eq i.pos fun l => (F ^ k) i l * F l j
    have split : (F ^ (k + 1)) i j = (F ^ k) i l * F l j := by
      rw [pow_succ, Matrix.mul_apply, largest]
    rw [split] at nonzero
    obtain ⟨v, start, finish, best⟩ := ih (left_ne_zero_of_mul nonzero)
    refine ⟨Function.update v (k + 1) j, by simpa using start, by simp, ?_⟩
    rw [weight_update, best, finish, split]

/-! ### The best mean -/

/-- `ρ k` is the best mean weight of an edge over the closed walks with `k + 1` edges. -/
def Means (F : WeightMatrix n Height) (ρ : Nat → Height) : Prop :=
  ∀ k < n, ρ k ^ (k + 1) = ∑ i, (F ^ (k + 1)) i i

/-- The best mean weight over the closed walks with at most `n` edges. -/
def bestMean (n : Nat) (ρ : Nat → Height) : Height := ∑ k ∈ Finset.range n, ρ k

namespace Means

variable {ρ : Nat → Height} (means : F.Means ρ)

include means

private theorem short_le {k : Nat} (less : k < n) (i : Fin n) :
    (F ^ (k + 1)) i i ≤ bestMean n ρ ^ (k + 1) := by
  calc (F ^ (k + 1)) i i ≤ ∑ i, (F ^ (k + 1)) i i :=
        le_sum (fun i => (F ^ (k + 1)) i i) (Finset.mem_univ i)
    _ = ρ k ^ (k + 1) := (means k less).symm
    _ ≤ bestMean n ρ ^ (k + 1) :=
        pow_le_pow_left₀ zero_le (le_sum ρ (Finset.mem_range.mpr less)) _

/-- No closed walk, however long, has a better mean. -/
theorem pow_diagonal_le {k : Nat} (pos : k ≠ 0) (i : Fin n) :
    (F ^ k) i i ≤ bestMean n ρ ^ k := by
  by_cases empty : bestMean n ρ = 0
  · -- nothing can be divided by zero, but every other rate bounds the short walks as well
    have bound (t : Height) (nonzero : t ≠ 0) : (F ^ k) i i ≤ t ^ k := by
      apply pow_diagonal_le_pow (inv_mul_cancel₀ nonzero)
      intro l less i
      refine (means.short_le less i).trans ?_
      rw [empty, zero_pow (Nat.succ_ne_zero l)]
      exact zero_le
    rw [Height.eq_zero_of_le_pow pos bound]
    exact zero_le
  · exact pow_diagonal_le_pow (inv_mul_cancel₀ empty) (fun l less i => means.short_le less i) k i

/-- Some closed walk with at most `n` edges attains the best mean. -/
theorem exists_pow_diagonal_eq (nonzero : bestMean n ρ ≠ 0) :
    ∃ k < n, ∃ i, (F ^ (k + 1)) i i = bestMean n ρ ^ (k + 1) := by
  have pos : 0 < n := by
    by_contra none
    obtain rfl : n = 0 := by omega
    exact nonzero (by simp [bestMean])
  obtain ⟨k, best⟩ := Height.exists_sum_eq pos fun k : Fin n => ρ k
  obtain ⟨i, largest⟩ := Height.exists_sum_eq pos fun i => (F ^ (k.val + 1)) i i
  refine ⟨k, k.isLt, i, ?_⟩
  rw [bestMean, Finset.sum_range, best, means k k.isLt, largest]

/-- The best mean gains exactly if a short closed walk does. -/
theorem one_lt_bestMean_iff : 1 < bestMean n ρ ↔ ¬ F.NoGain := by
  constructor
  · intro gains noGain
    obtain ⟨k, less, i, attained⟩ := means.exists_pow_diagonal_eq (zero_lt_one.trans gains).ne'
    have above : 1 < (F ^ (k + 1)) i i := attained ▸ one_lt_pow₀ gains (Nat.succ_ne_zero k)
    exact not_lt_of_ge (noGain k less i) above
  · intro gains
    by_contra small
    refine gains fun k less i => (means.short_le less i).trans ?_
    exact pow_le_one₀ zero_le (not_lt.mp small)

/-- Roots are unique, so means are multiplied by what the weights of the edges are. -/
theorem smul_eq {c : Height} {σ : Nat → Height} (scaled : (c • F).Means σ) {k : Nat}
    (less : k < n) : σ k = c * ρ k := by
  have root : σ k ^ (k + 1) = (c * ρ k) ^ (k + 1) := by
    rw [scaled k less, mul_pow, means k less, Finset.mul_sum]
    simp only [smul_pow, Matrix.smul_apply, smul_eq_mul]
  exact (pow_left_inj₀ zero_le zero_le (Nat.succ_ne_zero k)).mp root

theorem bestMean_smul {c : Height} {σ : Nat → Height} (scaled : (c • F).Means σ) :
    bestMean n σ = c * bestMean n ρ := by
  rw [bestMean, bestMean, Finset.mul_sum]
  exact Finset.sum_congr rfl fun k hk => means.smul_eq scaled (Finset.mem_range.mp hk)

end Means

end WeightMatrix
