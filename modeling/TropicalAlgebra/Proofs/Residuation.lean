import TropicalAlgebra.Proofs.Dioid.Height

/-!
# Residuation

Among the vectors whose image under a matrix of heights stays below `b` there is a greatest one.
The gap compares its image with `b`, and its square root is the least factor up to which an image
can match `b`.
-/

namespace TropicalAlgebra

namespace Height

section Sum

variable {n : Nat} {f : Fin n → Height}

theorem sum_le_iff {c : Height} : ∑ i, f i ≤ c ↔ ∀ i, f i ≤ c := by
  simp [WeightMatrix.sum_le]

theorem le_sum (i : Fin n) : f i ≤ ∑ j, f j := WeightMatrix.le_sum f (Finset.mem_univ i)

theorem sum_eq_zero_iff : ∑ i, f i = 0 ↔ ∀ i, f i = 0 := by
  simp only [← nonpos_iff_eq_zero, sum_le_iff]

end Sum

variable {m p : Nat} (B : Fin m → Fin p → Height) (b : Fin m → Height)

def image (u : Fin p → Height) (i : Fin m) : Height := ∑ j, B i j * u j

/-- The greatest vector with an image below `b`. -/
def greatest (j : Fin p) : Height := (∑ i, (b i)⁻¹ * B i j)⁻¹

/-- How far the image of the greatest vector stays below `b`. -/
def gap : Height := ∑ i, (image B (greatest B b) i)⁻¹ * b i

theorem image_mul (u : Fin p → Height) (t : Height) (i : Fin m) :
    image B (fun j => u j * t) i = image B u i * t := by
  simp only [image, Finset.sum_mul, mul_assoc]

/-- A factor of each row comes out of an image. -/
theorem image_rows_mul (c : Fin m → Height) (F : Fin m → Fin p → Height) (v : Fin p → Height) :
    image (fun i j => c i * F i j) v = fun i => c i * image F v i := by
  funext i
  simp only [image, Finset.mul_sum, mul_assoc]

variable {B b}

theorem greatest_ne_zero {i : Fin m} {j : Fin p} (target : b i ≠ 0) (entry : B i j ≠ 0) :
    greatest B b j ≠ 0 := by
  have term : (b i)⁻¹ * B i j ≠ 0 := mul_ne_zero (inv_ne_zero target) entry
  rw [greatest, Ne, inv_eq_zero, sum_eq_zero_iff]
  exact fun all => term (all i)

theorem image_greatest_le {i : Fin m} (target : b i ≠ 0) : image B (greatest B b) i ≤ b i := by
  refine sum_le_iff.mpr fun j => ?_
  -- an entry that is not zero is the inverse of a sum with `(b i)⁻¹ * B i j` among its terms
  by_cases empty : greatest B b j = 0
  · simp [empty]
  · have term : (b i)⁻¹ * B i j ≤ (greatest B b j)⁻¹ := by
      rw [greatest, inv_inv]
      exact le_sum (f := fun i => (b i)⁻¹ * B i j) i
    calc B i j * greatest B b j
        = b i * ((b i)⁻¹ * B i j) * greatest B b j := by rw [mul_inv_cancel_left₀ target]
      _ ≤ b i * (greatest B b j)⁻¹ * greatest B b j := by gcongr
      _ = b i := by rw [mul_assoc, inv_mul_cancel₀ empty, mul_one]

theorem image_greatest_ne_zero {i : Fin m} (target : b i ≠ 0) (row : ∃ j, B i j ≠ 0) :
    image B (greatest B b) i ≠ 0 := by
  obtain ⟨j, entry⟩ := row
  rw [image, Ne, sum_eq_zero_iff]
  exact fun all => mul_ne_zero entry (greatest_ne_zero target entry) (all j)

-- a column of zeros bounds nothing, hence the condition
theorem le_greatest {u : Fin p → Height} (below : ∀ i, image B u i ≤ b i) {j : Fin p}
    (column : ∑ i, (b i)⁻¹ * B i j ≠ 0) : u j ≤ greatest B b j := by
  rw [greatest, ← one_div, le_div_iff₀ (zero_lt_iff.mpr column), Finset.mul_sum, sum_le_iff]
  intro i
  have entry : B i j * u j ≤ b i := (le_sum (f := fun j => B i j * u j) j).trans (below i)
  calc u j * ((b i)⁻¹ * B i j) = (b i)⁻¹ * (B i j * u j) := by rw [mul_comm, mul_assoc]
    _ ≤ (b i)⁻¹ * b i := by gcongr
    _ ≤ 1 := inv_mul_le_one

/-- No vector with an image below `b` reaches higher than the greatest one. -/
theorem image_le_image_greatest {u : Fin p → Height} (below : ∀ i, image B u i ≤ b i) {i : Fin m}
    (target : b i ≠ 0) : image B u i ≤ image B (greatest B b) i := by
  refine sum_le_iff.mpr fun j => ?_
  -- where the row is zero, `u` may exceed the greatest vector, but it counts for nothing
  by_cases entry : B i j = 0
  · simp [entry]
  · have column := inv_eq_zero.not.mp (greatest_ne_zero target entry)
    calc B i j * u j ≤ B i j * greatest B b j := by gcongr; exact le_greatest below column
      _ ≤ image B (greatest B b) i := le_sum (f := fun j => B i j * greatest B b j) j

/-! ### Matching up to a factor -/

/-- The vectors differ by no more than the factor `t`. -/
def Within (t : Height) (x y : Fin m → Height) : Prop := ∀ i, x i ≤ y i * t ∧ y i ≤ x i * t

theorem Within.symm {t : Height} {x y : Fin m → Height} (close : Within t x y) : Within t y x :=
  fun i => (close i).symm

theorem one_le_gap (rows : 0 < m) (target : ∀ i, b i ≠ 0) (row : ∀ i, ∃ j, B i j ≠ 0) :
    1 ≤ gap B b := by
  have reached := image_greatest_ne_zero (target ⟨0, rows⟩) (row ⟨0, rows⟩)
  refine le_trans ?_ (le_sum (f := fun i => (image B (greatest B b) i)⁻¹ * b i) ⟨0, rows⟩)
  rw [mul_comm, ← div_eq_mul_inv, one_le_div₀ (zero_lt_iff.mpr reached)]
  exact image_greatest_le (target _)

theorem le_image_greatest_mul_gap (target : ∀ i, b i ≠ 0) (row : ∀ i, ∃ j, B i j ≠ 0) (i : Fin m) :
    b i ≤ image B (greatest B b) i * gap B b := by
  have reached := image_greatest_ne_zero (target i) (row i)
  calc b i = image B (greatest B b) i * ((image B (greatest B b) i)⁻¹ * b i) :=
        (mul_inv_cancel_left₀ reached _).symm
    _ ≤ image B (greatest B b) i * gap B b := by
        gcongr
        exact le_sum (f := fun i => (image B (greatest B b) i)⁻¹ * b i) i

/-- Multiplied by the square root `s` of the gap, the greatest vector has an image within `s`. -/
theorem within_image_centred (target : ∀ i, b i ≠ 0) (row : ∀ i, ∃ j, B i j ≠ 0) {s : Height}
    (root : s * s = gap B b) :
    Within s b (image B fun j => greatest B b j * s) := by
  intro i
  rw [image_mul]
  constructor
  -- the greatest vector is the gap below `b`, and one factor `s` halves that
  · rw [mul_assoc, root]
    exact le_image_greatest_mul_gap target row i
  · gcongr
    exact image_greatest_le (target i)

theorem exists_eq_image_centred (rows : 0 < m) (target : ∀ i, b i ≠ 0)
    (row : ∀ i, ∃ j, B i j ≠ 0) {s : Height} (root : s * s = gap B b) :
    ∃ i, b i = image B (fun j => greatest B b j * s) i * s := by
  obtain ⟨i, largest⟩ := exists_sum_eq rows fun i => (image B (greatest B b) i)⁻¹ * b i
  refine ⟨i, ?_⟩
  rw [image_mul, mul_assoc, root, gap, largest,
    mul_inv_cancel_left₀ (image_greatest_ne_zero (target i) (row i))]

/-- No factor below the square root of the gap suffices, whichever vector is taken. -/
theorem gap_le_of_within (target : ∀ i, b i ≠ 0) {u : Fin p → Height} {t : Height}
    (close : Within t (image B u) b) : gap B b ≤ t * t := by
  refine sum_le_iff.mpr fun i => ?_
  obtain ⟨below, above⟩ := close i
  -- divided by `t`, the vector has an image below `b`, so the greatest one reaches at least as high
  have factor : t ≠ 0 := by
    rintro rfl
    exact target i (nonpos_iff_eq_zero.mp (by simpa using above))
  have shrunk : ∀ i, image B (fun j => u j * t⁻¹) i ≤ b i := by
    intro i
    rw [image_mul, ← div_eq_mul_inv, div_le_iff₀ (zero_lt_iff.mpr factor)]
    exact (close i).1
  have reached : b i ≤ image B (greatest B b) i * (t * t) := by
    calc b i ≤ image B u i * t := above
      _ = image B (fun j => u j * t⁻¹) i * (t * t) := by
        rw [image_mul, mul_assoc, inv_mul_cancel_left₀ factor]
      _ ≤ image B (greatest B b) i * (t * t) := by
        gcongr
        exact image_le_image_greatest shrunk (target i)
  have nonzero : image B (greatest B b) i ≠ 0 := by
    intro empty
    exact target i (nonpos_iff_eq_zero.mp (by simpa [empty] using reached))
  rw [mul_comm, ← div_eq_mul_inv, div_le_iff₀ (zero_lt_iff.mpr nonzero), mul_comm]
  exact reached

/-- Neither vector has a zero, and the square root of `γ` is the least factor between them. -/
structure Balanced (x y : Fin m → Height) (γ : Height) : Prop where
  left_ne_zero : ∀ i, x i ≠ 0
  right_ne_zero : ∀ i, y i ≠ 0
  one_le : 1 ≤ γ
  root : ∃ s, s * s = γ ∧ Within s x y ∧ ∃ i, x i = y i * s ∨ y i = x i * s

theorem Balanced.symm {x y : Fin m → Height} {γ : Height} (balanced : Balanced x y γ) :
    Balanced y x γ := by
  obtain ⟨s, root, close, i, far⟩ := balanced.root
  exact ⟨balanced.right_ne_zero, balanced.left_ne_zero, balanced.one_le,
    s, root, close.symm, i, far.symm⟩

theorem balanced_image_centred (rows : 0 < m) (target : ∀ i, b i ≠ 0) (row : ∀ i, ∃ j, B i j ≠ 0)
    {s : Height} (root : s * s = gap B b) :
    Balanced b (image B fun j => greatest B b j * s) (gap B b) where
  left_ne_zero := target
  right_ne_zero i := by
    -- `s` is not zero, since its square is at least one
    have factor : s ≠ 0 := by
      rintro rfl
      have positive := one_le_gap rows target row
      rw [← root, mul_zero] at positive
      exact not_lt_of_ge positive zero_lt_one
    rw [image_mul]
    exact mul_ne_zero (image_greatest_ne_zero (target i) (row i)) factor
  one_le := one_le_gap rows target row
  root := by
    obtain ⟨i, far⟩ := exists_eq_image_centred rows target row root
    exact ⟨s, root, within_image_centred target row root, i, Or.inl far⟩

/-- The next gap, taken against the image of `u`, is no larger. -/
theorem Balanced.gap_le {n : Nat} {A : Fin m → Fin n → Height} {u : Fin n → Height}
    {y : Fin m → Height} {γ : Height} (balanced : Balanced (image A u) y γ) : gap A y ≤ γ := by
  obtain ⟨s, root, close, -⟩ := balanced.root
  -- `u` itself is within the factor `s`, and no vector beats the gap
  rw [← root]
  exact gap_le_of_within balanced.right_ne_zero close

/-- A gap of at most one leaves no difference, except next to a zero. -/
theorem image_greatest_eq_of_gap_le_one (small : gap B b ≤ 1) {i : Fin m} (target : b i ≠ 0)
    (reached : image B (greatest B b) i ≠ 0) : image B (greatest B b) i = b i := by
  apply le_antisymm (image_greatest_le target)
  have term := (le_sum (f := fun i => (image B (greatest B b) i)⁻¹ * b i) i).trans small
  rwa [mul_comm, ← div_eq_mul_inv, div_le_one₀ (zero_lt_iff.mpr reached)] at term

/-! ### Multiples -/

section Multiples

variable {δ : Fin m → Height} (factors : ∀ i, δ i ≠ 0)

private theorem inv_mul_cancel_factor {c : Height} (nonzero : c ≠ 0) (x y : Height) :
    (c * x)⁻¹ * (c * y) = x⁻¹ * y := by
  rw [mul_inv, mul_comm c⁻¹, mul_assoc, inv_mul_cancel_left₀ nonzero]

theorem image_scaled (δ : Fin m → Height) (B : Fin m → Fin p → Height) (u : Fin p → Height)
    (t : Height) :
    image (fun i j => δ i * B i j) (fun j => u j * t) = fun i => δ i * image B u i * t := by
  funext i
  rw [image_mul, image_rows_mul]

include factors

/-- The factor of a row meets its inverse in the target. -/
theorem greatest_scaled (b : Fin m → Height) (t : Height) :
    greatest (fun i j => δ i * B i j) (fun i => δ i * b i * t) = fun j => greatest B b j * t := by
  funext j
  have term (i : Fin m) : (δ i * b i * t)⁻¹ * (δ i * B i j) = t⁻¹ * ((b i)⁻¹ * B i j) := by
    rw [mul_assoc, inv_mul_cancel_factor (factors i), mul_comm (b i), mul_inv, mul_assoc]
  rw [greatest, Finset.sum_congr rfl fun i _ => term i, ← Finset.mul_sum, mul_inv, inv_inv]
  exact mul_comm t _

theorem gap_scaled {t : Height} (nonzero : t ≠ 0) (b : Fin m → Height) :
    gap (fun i j => δ i * B i j) (fun i => δ i * b i * t) = gap B b := by
  simp only [gap, greatest_scaled factors, image_scaled]
  refine Finset.sum_congr rfl fun i _ => ?_
  rw [mul_assoc, mul_assoc, inv_mul_cancel_factor (factors i), mul_comm _ t, mul_comm _ t,
    inv_mul_cancel_factor nonzero]

end Multiples

end Height

end TropicalAlgebra
