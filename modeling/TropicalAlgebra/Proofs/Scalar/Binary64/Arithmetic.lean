import TropicalAlgebra.Proofs.Scalar.Binary64.Nearest
import TropicalAlgebra.Scalar

/-!
# Floating-point numbers through their levels

Comparisons, sums and products of floating-point numbers are described by their levels alone.
-/

namespace TropicalAlgebra

namespace Binary64

open Float.Model Float.Model.UnpackedFloat

def unpacked (a : Float) : UnpackedFloat := a.toModel.unpack

/-- Not the value that is no number. -/
def IsNumber (a : Float) : Prop := unpacked a ≠ .notANumber

/-- The level of a floating-point number. -/
def levelOf (a : Float) : Int := level (unpacked a)

variable {a b : Float}

theorem canonical_unpacked (a : Float) : Canonical (unpacked a) := canonical_unpack _

theorem levelOf_bounds (a : Float) : -limit ≤ levelOf a ∧ levelOf a ≤ limit := by
  have high := limit_pos
  rcases level_cases (canonical_unpacked a) with ⟨s, -, value⟩ | ⟨-, low, up⟩
  · cases s <;> simp only [levelOf, value, Sign.apply] <;> omega
  · exact ⟨low.le, up.le⟩

theorem unpacked_of_levelOf_eq_limit (top : levelOf a = limit) :
    unpacked a = .infinity .positive := by
  have high := limit_pos
  rcases level_cases (canonical_unpacked a) with ⟨s, kind, value⟩ | ⟨-, -, up⟩
  · cases s with
    | positive => exact kind
    | negative =>
      rw [levelOf, value, Sign.apply] at top
      omega
  · exact absurd top up.ne

theorem unpacked_of_levelOf_eq_neg_limit (bottom : levelOf a = -limit) :
    unpacked a = .infinity .negative := by
  have high := limit_pos
  rcases level_cases (canonical_unpacked a) with ⟨s, kind, value⟩ | ⟨-, low, -⟩
  · cases s with
    | negative => exact kind
    | positive =>
      rw [levelOf, value, Sign.apply] at bottom
      omega
  · exact absurd bottom low.ne'

/-! ### Comparison -/

theorem compare_unpacked (number : IsNumber a) (number' : IsNumber b) :
    (unpacked a).compare (unpacked b) = some (compare (levelOf a) (levelOf b)) :=
  compare_eq (canonical_unpacked a) (canonical_unpacked b) number number'

theorem compare_eq_none (none_number : ¬ (IsNumber a ∧ IsNumber b)) :
    (unpacked a).compare (unpacked b) = none := by
  rcases not_and_or.mp none_number with left | right
  · rw [not_not.mp left]
    cases unpacked b <;> rfl
  · rw [not_not.mp right]
    cases unpacked a <;> rfl

theorem le_iff : a ≤ b ↔ IsNumber a ∧ IsNumber b ∧ levelOf a ≤ levelOf b := by
  have unfolded : a ≤ b ↔ ((unpacked a).compare (unpacked b)).any (·.isLE) = true :=
    decide_eq_true_iff
  by_cases numbers : IsNumber a ∧ IsNumber b
  · rw [unfolded, compare_unpacked numbers.1 numbers.2, Option.any_some, ← and_assoc,
      and_iff_right numbers]
    exact Std.isLE_compare
  · rw [unfolded, compare_eq_none numbers, ← and_assoc]
    exact iff_of_false Bool.false_ne_true fun h => numbers h.1

theorem lt_iff : a < b ↔ IsNumber a ∧ IsNumber b ∧ levelOf a < levelOf b := by
  have unfolded : a < b ↔ ((unpacked a).compare (unpacked b) == some .lt) = true :=
    decide_eq_true_iff
  by_cases numbers : IsNumber a ∧ IsNumber b
  · rw [unfolded, compare_unpacked numbers.1 numbers.2, ← and_assoc, and_iff_right numbers,
      beq_iff_eq, Option.some.injEq]
    exact compare_lt_iff_lt
  · rw [unfolded, compare_eq_none numbers, ← and_assoc]
    exact iff_of_false Bool.false_ne_true fun h => numbers h.1

theorem beq_iff : (a == b) = true ↔ IsNumber a ∧ IsNumber b ∧ levelOf a = levelOf b := by
  have unfolded : (a == b) = true ↔ ((unpacked a).compare (unpacked b) == some .eq) = true :=
    Iff.rfl
  by_cases numbers : IsNumber a ∧ IsNumber b
  · rw [unfolded, compare_unpacked numbers.1 numbers.2, ← and_assoc, and_iff_right numbers,
      beq_iff_eq, Option.some.injEq]
    exact compare_eq_iff_eq
  · rw [unfolded, compare_eq_none numbers, ← and_assoc]
    exact iff_of_false Bool.false_ne_true fun h => numbers h.1

/-! ### Sums -/

/-- A result that is a number of this level. -/
def Stores (f : UnpackedFloat) (n : Int) : Prop :=
  ∃ g, UnpackedFloat.unpack Format.binary64 (UnpackedFloat.pack Format.binary64 f) = g ∧
    g ≠ .notANumber ∧ level g = n

theorem stores_level {f : UnpackedFloat} (shape : Canonical f) (number : f ≠ .notANumber) :
    Stores f (level f) :=
  ⟨f, unpack_pack shape, number, rfl⟩

/-- Moving the exponent down to `e'` adds low bits to the mantissa. -/
theorem apply_size (s : Sign) (m : Nat) {e e' : Int} (low : -2148 ≤ e') (order : e' ≤ e) :
    s.apply (size m e) = s.apply (m <<< (e - e').toNat : Nat) * 2 ^ (e' + 2148).toNat := by
  have exponent : (e + 2148).toNat = (e - e').toNat + (e' + 2148).toNat := by omega
  have shifted : size m e = m <<< (e - e').toNat * 2 ^ (e' + 2148).toNat := by
    rw [size, exponent, Nat.pow_add, Nat.shiftLeft_eq, Nat.mul_assoc]
  rw [shifted]
  cases s <;> simp [Sign.apply]

theorem add_stores {f g : UnpackedFloat} (shape : Canonical f) (shape' : Canonical g)
    (number : f ≠ .notANumber) (number' : g ≠ .notANumber) (finite : ∀ s, f ≠ .infinity s)
    (finite' : ∀ s, g ≠ .infinity s) :
    Stores (UnpackedFloat.add Format.binary64 f g) (nearest (level f + level g)) := by
  cases f with
  | notANumber => exact absurd rfl number
  | infinity s => exact absurd rfl (finite s)
  | zero s =>
    rw [level, Int.zero_add, nearest_level shape']
    cases g with
    | notANumber => exact absurd rfl number'
    | infinity s' => exact absurd rfl (finite' s')
    | zero s' =>
      rw [UnpackedFloat.add]
      split <;> exact stores_level trivial (by simp)
    | finite s' m' e' pos' => exact stores_level shape' number'
  | finite s m e pos =>
    cases g with
    | notANumber => exact absurd rfl number'
    | infinity s' => exact absurd rfl (finite' s')
    | zero s' =>
      have zero : level (.zero s') = 0 := rfl
      rw [zero, Int.add_zero, nearest_level shape]
      exact stores_level shape number
    | finite s' m' e' pos' =>
      have low : -2148 ≤ min e e' := by
        have := shape.1.2.1
        have := shape'.1.2.1
        omega
      rw [level, level, apply_size s m low (min_le_left e e'),
        apply_size s' m' low (min_le_right e e'), ← Int.add_mul]
      exact unpack_pack_normalize _ low

theorem add_infinity_left {s : Sign} {g : UnpackedFloat} (number : g ≠ .notANumber)
    (agree : ∀ s', g = .infinity s' → s' = s) :
    UnpackedFloat.add Format.binary64 (.infinity s) g = .infinity s := by
  cases g with
  | notANumber => exact absurd rfl number
  | infinity s' =>
    rw [UnpackedFloat.add, agree s' rfl, if_pos (by cases s <;> rfl)]
  | zero s' => rfl
  | finite s' m' e' pos' => rfl

theorem add_infinity_right {s : Sign} {f : UnpackedFloat} (number : f ≠ .notANumber)
    (agree : ∀ s', f = .infinity s' → s' = s) :
    UnpackedFloat.add Format.binary64 f (.infinity s) = .infinity s := by
  cases f with
  | notANumber => exact absurd rfl number
  | infinity s' =>
    rw [UnpackedFloat.add, agree s' rfl, if_pos (by cases s <;> rfl)]
  | zero s' => rfl
  | finite s' m' e' pos' => rfl

/-- The level of a sum of numbers of these levels. Infinities prevail. -/
def plus (x y : Int) : Int :=
  if x = limit ∨ y = limit then limit
  else if x = -limit ∨ y = -limit then -limit
  else nearest (x + y)

theorem plus_comm (x y : Int) : plus x y = plus y x := by
  simp only [plus, or_comm, Int.add_comm]

theorem not_infinity {f : UnpackedFloat} (top : level f ≠ limit) (bottom : level f ≠ -limit)
    (s : Sign) : f ≠ .infinity s := by
  rintro rfl
  cases s
  · exact bottom rfl
  · exact top rfl

theorem positive_of_infinity (bottom : levelOf a ≠ -limit) (s : Sign)
    (kind : unpacked a = .infinity s) : s = .positive := by
  cases s with
  | negative => exact absurd (congrArg level kind) bottom
  | positive => rfl

theorem negative_of_infinity (top : levelOf a ≠ limit) (s : Sign)
    (kind : unpacked a = .infinity s) : s = .negative := by
  cases s with
  | negative => rfl
  | positive => exact absurd (congrArg level kind) top

/-- Two numbers, other than opposite infinities. -/
structure Addable (a b : Float) : Prop where
  left : IsNumber a
  right : IsNumber b
  not_opposite : ¬ (levelOf a = limit ∧ levelOf b = -limit)
  not_opposite' : ¬ (levelOf a = -limit ∧ levelOf b = limit)

theorem Addable.levelOf_add (h : Addable a b) :
    IsNumber (a + b) ∧ levelOf (a + b) = plus (levelOf a) (levelOf b) := by
  obtain ⟨number, number', compatible, compatible'⟩ := h
  suffices Stores (UnpackedFloat.add Format.binary64 (unpacked a) (unpacked b))
      (plus (levelOf a) (levelOf b)) by
    obtain ⟨g, rfl, isNumber, value⟩ := this
    exact ⟨isNumber, value⟩
  have infinite (s : Sign) : Stores (.infinity s) (s.apply limit) :=
    stores_level (f := .infinity s) trivial (by simp)
  unfold plus
  split
  next top =>
    rcases top with left | right
    · rw [unpacked_of_levelOf_eq_limit left,
        add_infinity_left number' (positive_of_infinity fun other => compatible ⟨left, other⟩)]
      exact infinite .positive
    · rw [unpacked_of_levelOf_eq_limit right,
        add_infinity_right number (positive_of_infinity fun other => compatible' ⟨other, right⟩)]
      exact infinite .positive
  next notTop =>
    rw [not_or] at notTop
    split
    next bottom =>
      rcases bottom with left | right
      · rw [unpacked_of_levelOf_eq_neg_limit left,
          add_infinity_left number' (negative_of_infinity notTop.2)]
        exact infinite .negative
      · rw [unpacked_of_levelOf_eq_neg_limit right,
          add_infinity_right number (negative_of_infinity notTop.1)]
        exact infinite .negative
    next notBottom =>
      rw [not_or] at notBottom
      exact add_stores (canonical_unpacked a) (canonical_unpacked b) number number'
        (not_infinity notTop.1 notBottom.1) (not_infinity notTop.2 notBottom.2)

theorem Addable.symm (h : Addable a b) : Addable b a where
  left := h.right
  right := h.left
  not_opposite opposite := h.not_opposite' opposite.symm
  not_opposite' opposite := h.not_opposite opposite.symm

theorem Addable.levelOf_comm (h : Addable a b) : levelOf (a + b) = levelOf (b + a) := by
  rw [h.levelOf_add.2, h.symm.levelOf_add.2, plus_comm]

/-- Sums are monotone. -/
theorem Addable.levelOf_le {a' b' : Float} (h : Addable a b) (h' : Addable a' b')
    (left : levelOf a ≤ levelOf a') (right : levelOf b ≤ levelOf b') :
    levelOf (a + b) ≤ levelOf (a' + b') := by
  have low := (levelOf_bounds (a' + b')).1
  have high := (levelOf_bounds (a + b)).2
  have boundsA := levelOf_bounds a
  have boundsB := levelOf_bounds b
  have not_opposite := h.not_opposite
  have not_opposite' := h.not_opposite'
  rw [h.levelOf_add.2] at high ⊢
  rw [h'.levelOf_add.2] at low ⊢
  unfold plus at low high ⊢
  -- an infinity among the operands settles the matter on one of the two sides
  by_cases top : levelOf a' = limit ∨ levelOf b' = limit
  · rw [if_pos top]
    exact high
  by_cases bottom : levelOf a = -limit ∨ levelOf b = -limit
  · have notTop : ¬ (levelOf a = limit ∨ levelOf b = limit) := by
      have := limit_pos
      omega
    rw [if_neg notTop, if_pos bottom]
    exact low
  · have boundsA' := levelOf_bounds a'
    have boundsB' := levelOf_bounds b'
    rw [if_neg (by omega), if_neg bottom, if_neg top, if_neg (by omega)]
    exact nearest_mono (Int.add_le_add left right)

theorem plus_limit (x : Int) : plus limit x = limit := if_pos (Or.inl rfl)

theorem plus_neg_limit {x : Int} (top : x ≠ limit) : plus (-limit) x = -limit := by
  have := limit_pos
  rw [plus, if_neg (by omega), if_pos (Or.inl rfl)]

theorem plus_zero (a : Float) : plus 0 (levelOf a) = levelOf a := by
  have := limit_pos
  rw [plus, Int.zero_add]
  split
  · omega
  · split
    · omega
    · exact nearest_level (canonical_unpacked a)

/-! ### Products -/

/-- The level of the number one. -/
@[irreducible] def unit : Nat := size 1 0

theorem unit_pos : 0 < unit := by
  rw [unit]
  exact size_pos 0 Nat.one_pos

theorem size_mul_size (m m' : Nat) {e e' : Int} (low : -1074 ≤ e) (low' : -1074 ≤ e') :
    size m e * size m' e' = size (m * m') (e + e') * unit := by
  have exponent : (e + 2148).toNat + (e' + 2148).toNat =
      (e + e' + 2148).toNat + (0 + 2148 : Int).toNat := by omega
  have powers : 2 ^ (e + 2148).toNat * 2 ^ (e' + 2148).toNat =
      2 ^ (e + e' + 2148).toNat * 2 ^ (0 + 2148 : Int).toNat := by
    rw [← Nat.pow_add, exponent, Nat.pow_add]
  rw [unit, size, size, size, size, Nat.mul_mul_mul_comm, powers, Nat.one_mul, Nat.mul_assoc,
    Nat.mul_assoc, Nat.mul_assoc]

theorem apply_mul (s s' : Sign) (m n : Int) : s.apply m * s'.apply n = (s * s').apply (m * n) := by
  cases s <;> cases s'
  · exact Int.neg_mul_neg m n
  · exact Int.neg_mul m n
  · exact Int.mul_neg m n
  · rfl

theorem apply_mul_ediv (s : Sign) (n : Int) {u : Int} (pos : 0 < u) :
    s.apply (n * u) / u = s.apply n := by
  cases s with
  | negative =>
    rw [Sign.apply, Sign.apply, ← Int.neg_mul, Int.mul_ediv_cancel _ pos.ne']
  | positive => exact Int.mul_ediv_cancel n pos.ne'

/-- The product of two stored mantissas has enough bits to be rounded by dropping some. -/
theorem le_lastUnit_mul {m m' : Nat} {e e' : Int} (shape : Normalized m e)
    (shape' : Normalized m' e') (pos : 0 < m) (pos' : 0 < m') :
    e + e' ≤ lastUnit (m * m') (e + e') := by
  obtain ⟨-, low, normal⟩ := shape
  obtain ⟨-, low', normal'⟩ := shape'
  have nonzero := Nat.ne_of_gt (Nat.mul_pos pos pos')
  have bits : 2 ^ 52 ≤ m * m' → 52 ≤ (m * m').log2 := (Nat.le_log2 nonzero).mpr
  rw [lastUnit_eq]
  rcases normal with least | full
  · rcases normal' with least' | full'
    · omega
    · have := bits (Nat.le_trans full' (Nat.le_mul_of_pos_left m' pos))
      omega
  · have := bits (Nat.le_trans full (Nat.le_mul_of_pos_right m pos'))
    omega

theorem mul_stores {f g : UnpackedFloat} (shape : Canonical f) (shape' : Canonical g)
    (number : f ≠ .notANumber) (number' : g ≠ .notANumber) (finite : ∀ s, f ≠ .infinity s)
    (finite' : ∀ s, g ≠ .infinity s) :
    Stores (UnpackedFloat.mul Format.binary64 f g) (nearest (level f * level g / unit)) := by
  have zero (s : Sign) : Stores (.zero s) (nearest (0 / unit)) := by
    rw [Int.zero_ediv, nearest_zero]
    exact stores_level (f := .zero s) trivial (by simp)
  cases f with
  | notANumber => exact absurd rfl number
  | infinity s => exact absurd rfl (finite s)
  | zero s =>
    have level_zero : level (.zero s) = 0 := rfl
    rw [level_zero, Int.zero_mul]
    cases g with
    | notANumber => exact absurd rfl number'
    | infinity s' => exact absurd rfl (finite' s')
    | zero s' => exact zero _
    | finite s' m' e' pos' => exact zero _
  | finite s m e pos =>
    cases g with
    | notANumber => exact absurd rfl number'
    | infinity s' => exact absurd rfl (finite' s')
    | zero s' =>
      have level_zero : level (.zero s') = 0 := rfl
      rw [level_zero, Int.mul_zero]
      exact zero _
    | finite s' m' e' pos' =>
      have low := shape.1.2.1
      have low' := shape'.1.2.1
      have positive : (0 : Int) < unit := Int.natCast_pos.mpr unit_pos
      have value : s.apply (size m e) * s'.apply (size m' e') / unit =
          (s * s').apply (size (m * m') (e + e')) := by
        rw [apply_mul, ← Int.natCast_mul, size_mul_size m m' low low', Int.natCast_mul,
          apply_mul_ediv _ _ positive]
      rw [level, level, value, nearest_apply]
      exact unpack_pack_hasMagnitude (roundWithAccuracy_hasMagnitude (Nat.mul_pos pos pos')
        (by omega) (le_lastUnit_mul shape.1 shape'.1 pos pos'))

/-- The level of a product of numbers of these levels, none of which is negative. -/
def times (x y : Int) : Int := if x = limit ∨ y = limit then limit else nearest (x * y / unit)

theorem times_comm (x y : Int) : times x y = times y x := by
  simp only [times, or_comm, Int.mul_comm]

theorem mul_infinity_left {g : UnpackedFloat} (number : g ≠ .notANumber) (positive : 0 < level g) :
    UnpackedFloat.mul Format.binary64 (.infinity .positive) g = .infinity .positive := by
  cases g with
  | notANumber => exact absurd rfl number
  | infinity s =>
    cases s with
    | negative =>
      simp only [level, Sign.apply] at positive
      omega
    | positive => rfl
  | zero s => exact absurd positive (lt_irrefl 0)
  | finite s m e pos =>
    cases s with
    | negative =>
      simp only [level, Sign.apply] at positive
      omega
    | positive => rfl

theorem mul_infinity_comm (f : UnpackedFloat) :
    UnpackedFloat.mul Format.binary64 f (.infinity .positive) =
      UnpackedFloat.mul Format.binary64 (.infinity .positive) f := by
  cases f with
  | notANumber => rfl
  | zero s => rfl
  | infinity s => cases s <;> rfl
  | finite s m e pos => cases s <;> rfl

/-- Two numbers that are not negative, other than zero and infinity. -/
structure Multipliable (a b : Float) : Prop where
  left : IsNumber a
  right : IsNumber b
  nonneg : 0 ≤ levelOf a
  nonneg' : 0 ≤ levelOf b
  not_extreme : ¬ (levelOf a = limit ∧ levelOf b = 0)
  not_extreme' : ¬ (levelOf a = 0 ∧ levelOf b = limit)

theorem Multipliable.levelOf_mul (h : Multipliable a b) :
    IsNumber (a * b) ∧ levelOf (a * b) = times (levelOf a) (levelOf b) := by
  obtain ⟨number, number', nonneg, nonneg', compatible, compatible'⟩ := h
  suffices Stores (UnpackedFloat.mul Format.binary64 (unpacked a) (unpacked b))
      (times (levelOf a) (levelOf b)) by
    obtain ⟨g, rfl, isNumber, value⟩ := this
    exact ⟨isNumber, value⟩
  have infinite : Stores (.infinity .positive) limit :=
    stores_level (f := .infinity .positive) trivial (by simp)
  have high := limit_pos
  unfold times
  split
  next top =>
    rcases top with left | right
    · have positive : 0 < levelOf b :=
        lt_of_le_of_ne nonneg' fun zero => compatible ⟨left, zero.symm⟩
      rw [unpacked_of_levelOf_eq_limit left, mul_infinity_left number' positive]
      exact infinite
    · have positive : 0 < levelOf a :=
        lt_of_le_of_ne nonneg fun zero => compatible' ⟨zero.symm, right⟩
      rw [unpacked_of_levelOf_eq_limit right, mul_infinity_comm, mul_infinity_left number positive]
      exact infinite
  next notTop =>
    rw [not_or] at notTop
    exact mul_stores (canonical_unpacked a) (canonical_unpacked b) number number'
      (not_infinity notTop.1 (by rw [← levelOf]; omega))
      (not_infinity notTop.2 (by rw [← levelOf]; omega))

theorem Multipliable.symm (h : Multipliable a b) : Multipliable b a where
  left := h.right
  right := h.left
  nonneg := h.nonneg'
  nonneg' := h.nonneg
  not_extreme extreme := h.not_extreme' extreme.symm
  not_extreme' extreme := h.not_extreme extreme.symm

theorem Multipliable.levelOf_comm (h : Multipliable a b) : levelOf (a * b) = levelOf (b * a) := by
  rw [h.levelOf_mul.2, h.symm.levelOf_mul.2, times_comm]

/-- Products are monotone. -/
theorem Multipliable.levelOf_le {a' b' : Float} (h : Multipliable a b) (h' : Multipliable a' b')
    (left : levelOf a ≤ levelOf a') (right : levelOf b ≤ levelOf b') :
    levelOf (a * b) ≤ levelOf (a' * b') := by
  have high := (levelOf_bounds (a * b)).2
  have boundsA := levelOf_bounds a'
  have boundsB := levelOf_bounds b'
  rw [h.levelOf_mul.2] at high ⊢
  rw [h'.levelOf_mul.2]
  unfold times at high ⊢
  by_cases top : levelOf a' = limit ∨ levelOf b' = limit
  · rw [if_pos top]
    exact high
  · rw [if_neg (by omega), if_neg top]
    have products : levelOf a * levelOf b ≤ levelOf a' * levelOf b' :=
      Int.mul_le_mul left right h.nonneg' h'.nonneg
    exact nearest_mono (Int.ediv_le_ediv (Int.natCast_pos.mpr unit_pos) products)

theorem Multipliable.levelOf_nonneg (h : Multipliable a b) : 0 ≤ levelOf (a * b) := by
  rw [h.levelOf_mul.2]
  unfold times
  split
  · exact Int.natCast_nonneg limit
  · have product : 0 ≤ levelOf a * levelOf b / unit :=
      Int.ediv_nonneg (Int.mul_nonneg h.nonneg h.nonneg') (Int.natCast_nonneg unit)
    have rounded := nearest_mono product
    rwa [nearest_zero] at rounded

theorem times_limit (x : Int) : times limit x = limit := if_pos (Or.inl rfl)

theorem times_zero {x : Int} (top : x ≠ limit) : times 0 x = 0 := by
  have := limit_pos
  rw [times, if_neg (by omega), Int.zero_mul, Int.zero_ediv, nearest_zero]

theorem unit_lt_limit : unit < limit := by
  rw [unit, limit]
  calc size 1 0 < size (1 * 2 ^ 1) 0 := size_lt 0 (by decide)
    _ = size 1 (0 + 1) := size_mul_two_pow 1 1 (by decide)
    _ ≤ size 1 1024 := size_le_size le_rfl (by decide)

theorem times_unit (a : Float) : times unit (levelOf a) = levelOf a := by
  have := unit_lt_limit
  rw [times]
  split
  · omega
  · rw [Int.mul_ediv_cancel_left _ (Int.natCast_ne_zero.mpr unit_pos.ne')]
    exact nearest_level (canonical_unpacked a)

end Binary64

end TropicalAlgebra
