import TropicalAlgebra.Proofs.Walks

/-!
# Equations of a settled closure

Where no closed walk gains, the sum of the powers below the number of vertices solves the linear
equations that are expected of a closure, is its own closure, and gives the least solution of every
inequality `F * Y + B ≤ Y`.
-/

namespace WeightMatrix

section Semiring

variable {n : Nat} {β : Type} [CommSemiring β] (F : WeightMatrix n β)

theorem closureUpTo_succ_eq_left (k : Nat) : F.closureUpTo (k + 1) = 1 + F * F.closureUpTo k := by
  rw [closureUpTo, closureUpTo, Finset.sum_range_succ', Finset.mul_sum, add_comm, pow_zero]
  simp only [pow_succ']

theorem closureUpTo_succ_eq_right (k : Nat) : F.closureUpTo (k + 1) = 1 + F.closureUpTo k * F := by
  rw [closureUpTo, closureUpTo, Finset.sum_range_succ', Finset.sum_mul, add_comm, pow_zero]
  simp only [pow_succ]

end Semiring

variable {n : Nat} {β : Type} [IdemCommSemiring β] {F : WeightMatrix n β}

theorem NoGain.closureUpTo_eq_left (noGain : F.NoGain) :
    F.closureUpTo (n - 1) = 1 + F * F.closureUpTo (n - 1) := by
  rw [← closureUpTo_succ_eq_left]
  exact (F.closureUpTo_eq noGain (Nat.le_succ _)).symm

theorem NoGain.closureUpTo_eq_right (noGain : F.NoGain) :
    F.closureUpTo (n - 1) = 1 + F.closureUpTo (n - 1) * F := by
  rw [← closureUpTo_succ_eq_right]
  exact (F.closureUpTo_eq noGain (Nat.le_succ _)).symm

theorem NoGain.pow_diagonal_le_one (noGain : F.NoGain) (k : Nat) (i : Fin n) : (F ^ k) i i ≤ 1 := by
  -- a power stays below the first `n`, and of these only the empty walk is left to look at
  refine (F.pow_le_sum noGain k i i).trans ((sum_le _ _).mpr fun l hl => ?_)
  cases l with
  | zero => simp
  | succ l =>
    have bound : l + 1 < n := Finset.mem_range.mp hl
    exact noGain l (by omega) i

theorem NoGain.closureUpTo_diagonal (noGain : F.NoGain) (i : Fin n) :
    F.closureUpTo (n - 1) i i = 1 := by
  rw [closureUpTo_apply]
  apply le_antisymm
  · exact (sum_le _ _).mpr fun l _ => noGain.pow_diagonal_le_one l i
  · have first := le_sum (fun l => (F ^ l) i i) (Finset.mem_range.mpr (Nat.succ_pos (n - 1)))
    simpa using first

/-! ### Idempotence -/

private theorem add_self_eq {m p : Nat} (X : Matrix (Fin m) (Fin p) β) : X + X = X := by
  funext i j
  exact add_idem (X i j)

theorem NoGain.one_add_closureUpTo (noGain : F.NoGain) :
    1 + F.closureUpTo (n - 1) = F.closureUpTo (n - 1) := by
  calc 1 + F.closureUpTo (n - 1)
      = 1 + (1 + F * F.closureUpTo (n - 1)) := by rw [← noGain.closureUpTo_eq_left]
    _ = 1 + F * F.closureUpTo (n - 1) := by rw [← add_assoc, add_self_eq]
    _ = F.closureUpTo (n - 1) := noGain.closureUpTo_eq_left.symm

theorem NoGain.closureUpTo_add_mul (noGain : F.NoGain) :
    F.closureUpTo (n - 1) + F * F.closureUpTo (n - 1) = F.closureUpTo (n - 1) := by
  calc F.closureUpTo (n - 1) + F * F.closureUpTo (n - 1)
      = 1 + F * F.closureUpTo (n - 1) + F * F.closureUpTo (n - 1) := by
        rw [← noGain.closureUpTo_eq_left]
    _ = 1 + F * F.closureUpTo (n - 1) := by rw [add_assoc, add_self_eq]
    _ = F.closureUpTo (n - 1) := noGain.closureUpTo_eq_left.symm

/-- Walks in a row are one walk. -/
theorem NoGain.closureUpTo_mul_self (noGain : F.NoGain) :
    F.closureUpTo (n - 1) * F.closureUpTo (n - 1) = F.closureUpTo (n - 1) := by
  -- the left factor grows by one power at a time
  have partially (k : Nat) : F.closureUpTo k * F.closureUpTo (n - 1) = F.closureUpTo (n - 1) := by
    induction k with
    | zero => rw [closureUpTo_zero, one_mul]
    | succ k ih =>
      rw [closureUpTo_succ_eq_left, add_mul, one_mul, mul_assoc, ih]
      exact noGain.closureUpTo_add_mul
  exact partially (n - 1)

theorem NoGain.closureUpTo_pow (noGain : F.NoGain) (k : Nat) :
    F.closureUpTo (n - 1) ^ (k + 1) = F.closureUpTo (n - 1) := by
  induction k with
  | zero => rw [zero_add, pow_one]
  | succ k ih => rw [pow_succ, ih, noGain.closureUpTo_mul_self]

/-- A closure has no closed walk that gains. -/
theorem NoGain.closure (noGain : F.NoGain) : (F.closureUpTo (n - 1)).NoGain := by
  intro k _ i
  rw [noGain.closureUpTo_pow]
  exact (noGain.closureUpTo_diagonal i).le

/-- A closure is its own closure. -/
theorem NoGain.closureUpTo_closure (noGain : F.NoGain) :
    (F.closureUpTo (n - 1)).closureUpTo (n - 1) = F.closureUpTo (n - 1) := by
  have positive (k : Nat) :
      (F.closureUpTo (n - 1)).closureUpTo (k + 1) = F.closureUpTo (n - 1) := by
    induction k with
    | zero => rw [closureUpTo_succ, closureUpTo_zero, pow_one, noGain.one_add_closureUpTo]
    | succ k ih => rw [closureUpTo_succ, ih, noGain.closureUpTo_pow, add_self_eq]
  -- one power more than needed leaves the sum as it is, and the exponent is not zero any more
  rw [← closureUpTo_eq _ noGain.closure (Nat.le_succ (n - 1)), positive]

/-! ### Least solutions -/

variable {p : Nat} {B Y : Matrix (Fin n) (Fin p) β}

theorem NoGain.closureUpTo_mul_eq (noGain : F.NoGain) (B : Matrix (Fin n) (Fin p) β) :
    F.closureUpTo (n - 1) * B = F * (F.closureUpTo (n - 1) * B) + B := by
  conv_lhs => rw [noGain.closureUpTo_eq_left]
  rw [Matrix.add_mul, Matrix.one_mul, Matrix.mul_assoc, add_comm]

/-- A solution of the inequality `F * Y + B ≤ Y` lies above the iterates that start from `B`. -/
theorem closureUpTo_mul_add_eq (solves : F * Y + B + Y = Y) (k : Nat) :
    F.closureUpTo k * B + Y = Y := by
  induction k with
  | zero =>
    calc F.closureUpTo 0 * B + Y
        = B + (F * Y + B + Y) := by rw [closureUpTo_zero, Matrix.one_mul, solves]
      _ = F * Y + (B + B) + Y := by ac_rfl
      _ = Y := by rw [add_self_eq, solves]
  | succ k ih =>
    calc F.closureUpTo (k + 1) * B + Y
        = B + F * (F.closureUpTo k * B) + (F * Y + B + Y) := by
          rw [closureUpTo_succ_eq_left, Matrix.add_mul, Matrix.one_mul, Matrix.mul_assoc, solves]
      _ = F * (F.closureUpTo k * B) + F * Y + (B + B) + Y := by ac_rfl
      _ = F * (F.closureUpTo k * B + Y) + B + Y := by rw [add_self_eq, Matrix.mul_add]
      _ = Y := by rw [ih, solves]

end WeightMatrix
