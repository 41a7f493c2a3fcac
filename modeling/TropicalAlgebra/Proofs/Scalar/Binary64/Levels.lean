import Mathlib

/-!
# Levels of binary floating-point numbers

The finite numbers of the format binary64, and the products of two of them, are whole multiples of
`2 ^ (-2148)`. Counted in this unit, with the infinities at `2 ^ 1024` on either side, every number
has an integer level, and the comparisons of floating-point numbers are those of their levels.
-/

namespace TropicalAlgebra

namespace Binary64

open Float.Model Float.Model.UnpackedFloat

/-- The magnitude `m * 2 ^ e` in units of `2 ^ (-2148)`. -/
@[irreducible] def size (m : Nat) (e : Int) : Nat := m * 2 ^ (e + 2148).toNat

/-- The level of infinity. -/
@[irreducible] def limit : Nat := size 1 1024

/-- A signed number of units; numbers that are no numbers have no meaningful level. -/
def level : UnpackedFloat → Int
  | .infinity s => s.apply limit
  | .notANumber => 0
  | .zero _ => 0
  | .finite s m e _ => s.apply (size m e)

/-- The mantissa has 53 bits, or fewer and the least exponent. -/
def Normalized (m : Nat) (e : Int) : Prop :=
  m < 2 ^ 53 ∧ -1074 ≤ e ∧ (e = -1074 ∨ 2 ^ 52 ≤ m)

/-- The form of a stored number. -/
def Canonical : UnpackedFloat → Prop
  | .finite _ m e _ => Normalized m e ∧ e ≤ 971
  | _ => True

/-! ### Magnitudes -/

theorem size_zero (e : Int) : size 0 e = 0 := by
  rw [size, Nat.zero_mul]

theorem size_lt {m m' : Nat} (e : Int) (order : m < m') : size m e < size m' e := by
  rw [size, size]
  exact Nat.mul_lt_mul_of_pos_right order (Nat.two_pow_pos _)

theorem size_pos {m : Nat} (e : Int) (pos : 0 < m) : 0 < size m e := by
  rw [size]
  exact Nat.mul_pos pos (Nat.two_pow_pos _)

theorem size_le_size {m m' : Nat} {e e' : Int} (order : m ≤ m') (order' : e ≤ e') :
    size m e ≤ size m' e' := by
  rw [size, size]
  exact Nat.mul_le_mul order (Nat.pow_le_pow_right (by decide) (by omega))

/-- Bits move from the mantissa to the exponent. -/
theorem size_mul_two_pow (m k : Nat) {e : Int} (low : -2148 ≤ e) :
    size (m * 2 ^ k) e = size m (e + k) := by
  have exponent : (e + k + 2148).toNat = k + (e + 2148).toNat := by omega
  rw [size, size, exponent, Nat.pow_add, Nat.mul_assoc]

theorem limit_eq_size {e : Int} {k : Nat} (low : -2148 ≤ e) (top : e + k = 1024) :
    limit = size (2 ^ k) e := by
  have moved := size_mul_two_pow 1 k low
  rw [Nat.one_mul, top] at moved
  rw [moved, limit]

theorem limit_pos : 0 < limit := by
  rw [limit]
  exact size_pos 1024 Nat.one_pos

theorem size_lt_size {m m' : Nat} {e e' : Int} (shape : Normalized m e) (shape' : Normalized m' e')
    (order : e < e') : size m e < size m' e' := by
  obtain ⟨bits, low, -⟩ := shape
  obtain ⟨-, -, normal⟩ := shape'
  calc size m e < size (2 ^ 52 * 2 ^ 1) e := size_lt e bits
    _ = size (2 ^ 52) (e + 1) := size_mul_two_pow _ 1 (by omega)
    _ ≤ size m' e' := size_le_size (by omega) order

theorem size_lt_limit {m : Nat} {e : Int} (shape : Normalized m e) (top : e ≤ 971) :
    size m e < limit :=
  calc size m e ≤ size m 971 := size_le_size (Nat.le_refl m) top
    _ < size (2 ^ 53) 971 := size_lt 971 shape.1
    _ = limit := (limit_eq_size (by decide) (by decide)).symm

theorem limit_le_size {m : Nat} {e : Int} (shape : Normalized m e) (top : 971 < e) :
    limit ≤ size m e := by
  obtain ⟨-, low, normal⟩ := shape
  rw [limit_eq_size (e := 972) (k := 52) (by decide) (by decide)]
  exact size_le_size (by omega) top

/-- The infinities have the greatest and the least level, and no other number has. -/
theorem level_cases {f : UnpackedFloat} (shape : Canonical f) :
    (∃ s, f = .infinity s ∧ level f = s.apply limit) ∨
      (∀ s, f ≠ .infinity s) ∧ -limit < level f ∧ level f < limit := by
  have high := limit_pos
  cases f with
  | infinity s => exact Or.inl ⟨s, rfl, rfl⟩
  | notANumber => exact Or.inr ⟨by simp, by simp only [level]; omega, by simp only [level]; omega⟩
  | zero s => exact Or.inr ⟨by simp, by simp only [level]; omega, by simp only [level]; omega⟩
  | finite s m e pos =>
    have bound := size_lt_limit shape.1 shape.2
    cases s <;> exact Or.inr ⟨by simp, by simp only [level, Sign.apply]; omega,
      by simp only [level, Sign.apply]; omega⟩

/-! ### Comparison -/

theorem compare_size {m m' : Nat} {e e' : Int} (shape : Normalized m e)
    (shape' : Normalized m' e') :
    (compare e e').then (compare m m') = compare (size m e) (size m' e') := by
  rcases lt_trichotomy e e' with order | rfl | order
  · rw [compare_lt_iff_lt.mpr order, compare_lt_iff_lt.mpr (size_lt_size shape shape' order)]
    rfl
  · rw [compare_eq_iff_eq.mpr rfl]
    rcases lt_trichotomy m m' with order | rfl | order
    · rw [compare_lt_iff_lt.mpr order]
      exact (compare_lt_iff_lt.mpr (size_lt e order)).symm
    · rw [compare_eq_iff_eq.mpr rfl, compare_eq_iff_eq.mpr rfl]
      rfl
    · rw [compare_gt_iff_gt.mpr order]
      exact (compare_gt_iff_gt.mpr (size_lt e order)).symm
  · rw [compare_gt_iff_gt.mpr order, compare_gt_iff_gt.mpr (size_lt_size shape' shape order)]
    rfl

section Kinds

private theorem lt_of_lt {a b : Int} (order : a < b) : some Ordering.lt = some (compare a b) :=
  congrArg some (compare_lt_iff_lt.mpr order).symm

private theorem gt_of_lt {a b : Int} (order : b < a) : some Ordering.gt = some (compare a b) :=
  congrArg some (compare_gt_iff_gt.mpr order).symm

private theorem eq_self (a : Int) : some Ordering.eq = some (compare a a) :=
  congrArg some (compare_eq_iff_eq.mpr rfl).symm

private theorem compare_cast (m m' : Nat) : compare (m : Int) (m' : Int) = compare m m' := by
  rcases lt_trichotomy m m' with order | rfl | order
  · rw [compare_lt_iff_lt.mpr order, compare_lt_iff_lt.mpr (by omega)]
  · rw [compare_eq_iff_eq.mpr rfl, compare_eq_iff_eq.mpr rfl]
  · rw [compare_gt_iff_gt.mpr order, compare_gt_iff_gt.mpr (by omega)]

private theorem compare_neg (m m' : Nat) :
    compare (-(m : Int)) (-(m' : Int)) = (compare m m').swap := by
  rcases lt_trichotomy m m' with order | rfl | order
  · rw [compare_lt_iff_lt.mpr order, compare_gt_iff_gt.mpr (by omega)]
    rfl
  · rw [compare_eq_iff_eq.mpr rfl, compare_eq_iff_eq.mpr rfl]
    rfl
  · rw [compare_gt_iff_gt.mpr order, compare_lt_iff_lt.mpr (by omega)]
    rfl

variable {g : UnpackedFloat}

private theorem compare_infinity (s : Sign) (shape : Canonical g) (number : g ≠ .notANumber) :
    UnpackedFloat.compare (.infinity s) g = some (compare (level (.infinity s)) (level g)) := by
  have high := limit_pos
  cases g with
  | notANumber => exact absurd rfl number
  | infinity s' =>
    cases s <;> cases s'
    · exact eq_self _
    · exact lt_of_lt (by simp only [level, Sign.apply]; omega)
    · exact gt_of_lt (by simp only [level, Sign.apply]; omega)
    · exact eq_self _
  | zero s' =>
    cases s
    · exact lt_of_lt (by simp only [level, Sign.apply]; omega)
    · exact gt_of_lt (by simp only [level, Sign.apply]; omega)
  | finite s' m' e' pos' =>
    have bound := size_lt_limit shape.1 shape.2
    cases s <;> cases s'
    · exact lt_of_lt (by simp only [level, Sign.apply]; omega)
    · exact lt_of_lt (by simp only [level, Sign.apply]; omega)
    · exact gt_of_lt (by simp only [level, Sign.apply]; omega)
    · exact gt_of_lt (by simp only [level, Sign.apply]; omega)

private theorem compare_zero (s : Sign) (number : g ≠ .notANumber) :
    UnpackedFloat.compare (.zero s) g = some (compare (level (.zero s)) (level g)) := by
  have high := limit_pos
  cases g with
  | notANumber => exact absurd rfl number
  | infinity s' =>
    cases s'
    · exact gt_of_lt (by simp only [level, Sign.apply]; omega)
    · exact lt_of_lt (by simp only [level, Sign.apply]; omega)
  | zero s' => exact eq_self _
  | finite s' m' e' pos' =>
    have positive := size_pos e' pos'
    cases s'
    · exact gt_of_lt (by simp only [level, Sign.apply]; omega)
    · exact lt_of_lt (by simp only [level, Sign.apply]; omega)

private theorem compare_finite {s : Sign} {m : Nat} {e : Int} {pos : 0 < m}
    (shape : Canonical (.finite s m e pos)) (shape' : Canonical g) (number : g ≠ .notANumber) :
    UnpackedFloat.compare (.finite s m e pos) g =
      some (compare (level (.finite s m e pos)) (level g)) := by
  have high := limit_pos
  have bound := size_lt_limit shape.1 shape.2
  have positive := size_pos e pos
  cases g with
  | notANumber => exact absurd rfl number
  | infinity s' =>
    cases s <;> cases s'
    · exact gt_of_lt (by simp only [level, Sign.apply]; omega)
    · exact lt_of_lt (by simp only [level, Sign.apply]; omega)
    · exact gt_of_lt (by simp only [level, Sign.apply]; omega)
    · exact lt_of_lt (by simp only [level, Sign.apply]; omega)
  | zero s' =>
    cases s
    · exact lt_of_lt (by simp only [level, Sign.apply]; omega)
    · exact gt_of_lt (by simp only [level, Sign.apply]; omega)
  | finite s' m' e' pos' =>
    have positive' := size_pos e' pos'
    -- two numbers of one sign are compared by their magnitudes
    have magnitudes := compare_size shape.1 shape'.1
    cases s <;> cases s'
    · simp only [UnpackedFloat.compare, level, Sign.apply, magnitudes, compare_neg]
    · exact lt_of_lt (by simp only [level, Sign.apply]; omega)
    · exact gt_of_lt (by simp only [level, Sign.apply]; omega)
    · simp only [UnpackedFloat.compare, level, Sign.apply, magnitudes, compare_cast]

end Kinds

/-- Comparing two numbers is comparing their levels. -/
theorem compare_eq {f g : UnpackedFloat} (shape : Canonical f) (shape' : Canonical g)
    (number : f ≠ .notANumber) (number' : g ≠ .notANumber) :
    f.compare g = some (compare (level f) (level g)) := by
  cases f with
  | notANumber => exact absurd rfl number
  | infinity s => exact compare_infinity s shape' number'
  | zero s => exact compare_zero s number'
  | finite s m e pos => exact compare_finite shape shape' number'

end Binary64

end TropicalAlgebra
