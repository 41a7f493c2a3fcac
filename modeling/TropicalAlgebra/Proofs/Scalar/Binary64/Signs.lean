import TropicalAlgebra.Proofs.Scalar.Binary64.Arithmetic

/-!
# Signs of binary floating-point numbers

Rounding is symmetric: sums, differences and products with a fixed factor follow their operands
through a change of sign, and comparisons do so up to their direction. What is neither a number
before nor after counts as unchanged, and so does the sign of zero.
-/

namespace TropicalAlgebra

namespace Binary64

open Float.Model Float.Model.UnpackedFloat

variable {a a' b b' : Float} {s : Sign}

/-! ### Negatives -/

theorem unpacked_neg (a : Float) : unpacked (-a) = (unpacked a).neg := by
  have shape : Canonical (unpacked a).neg := by
    have shape := canonical_unpacked a
    generalize unpacked a = f at shape
    cases f <;> exact shape
  exact unpack_pack shape

theorem isNumber_neg : IsNumber (-a) ↔ IsNumber a := by
  rw [IsNumber, IsNumber, unpacked_neg]
  cases unpacked a <;> simp [UnpackedFloat.neg]

theorem apply_neg (s : Sign) (n : Int) : (-s).apply n = -s.apply n := by
  cases s
  · exact (Int.neg_neg n).symm
  · rfl

theorem levelOf_neg (a : Float) : levelOf (-a) = -levelOf a := by
  rw [levelOf, levelOf, unpacked_neg]
  cases unpacked a with
  | notANumber => rfl
  | zero s => rfl
  | infinity s => exact apply_neg s _
  | finite s m e pos => exact apply_neg s _

theorem sub_eq_add_neg (f g : UnpackedFloat) :
    UnpackedFloat.sub Format.binary64 f g = UnpackedFloat.add Format.binary64 f g.neg := by
  have signs (s t : Sign) : (s == - -t) = (s == t) := by cases s <;> cases t <;> rfl
  cases f <;> cases g <;>
    grind [UnpackedFloat.sub, UnpackedFloat.add, UnpackedFloat.neg, apply_neg]

/-- What is read back after a result has been packed. -/
private abbrev stored (f : UnpackedFloat) : UnpackedFloat :=
  UnpackedFloat.unpack Format.binary64 (UnpackedFloat.pack Format.binary64 f)

theorem unpacked_add (a b : Float) :
    unpacked (a + b) = stored (UnpackedFloat.add Format.binary64 (unpacked a) (unpacked b)) := rfl

theorem unpacked_mul (a b : Float) :
    unpacked (a * b) = stored (UnpackedFloat.mul Format.binary64 (unpacked a) (unpacked b)) := rfl

/-- A difference is the sum with the negative. -/
theorem unpacked_sub (a b : Float) : unpacked (a - b) = unpacked (a + -b) := by
  have difference : unpacked (a - b) =
      stored (UnpackedFloat.sub Format.binary64 (unpacked a) (unpacked b)) := rfl
  rw [difference, unpacked_add, unpacked_neg, sub_eq_add_neg]

theorem levelOf_of_not_isNumber (not_number : ¬ IsNumber a) : levelOf a = 0 := by
  rw [levelOf, not_not.mp not_number]
  rfl

/-! ### When sums and products are numbers -/

private theorem not_isNumber_of_stored {f : UnpackedFloat} (computed : unpacked a = stored f)
    (undefined : f = .notANumber) : ¬ IsNumber a := by
  rw [IsNumber, not_not, computed, undefined]
  exact unpack_pack (f := .notANumber) trivial

theorem isNumber_add : IsNumber (a + b) ↔ Addable a b := by
  refine ⟨fun number => ?_, fun addable => addable.levelOf_add.1⟩
  -- each way of not being addable leaves no number
  have refuse (sum : UnpackedFloat.add Format.binary64 (unpacked a) (unpacked b) = .notANumber) :
      False := not_isNumber_of_stored (unpacked_add a b) sum number
  refine ⟨fun left => refuse ?_, fun right => refuse ?_, fun ⟨top, bottom⟩ => refuse ?_,
    fun ⟨bottom, top⟩ => refuse ?_⟩
  · rw [left]
    rfl
  · rw [right]
    cases unpacked a <;> rfl
  · rw [unpacked_of_levelOf_eq_limit top, unpacked_of_levelOf_eq_neg_limit bottom]
    rfl
  · rw [unpacked_of_levelOf_eq_neg_limit bottom, unpacked_of_levelOf_eq_limit top]
    rfl

/-- The level of a product of numbers of these levels. -/
def signedTimes (x y : Int) : Int :=
  if x.natAbs = limit ∨ y.natAbs = limit then x.sign * y.sign * limit else nearest (x * y / unit)

theorem unit_dvd {f g : UnpackedFloat} (shape : Canonical f) (shape' : Canonical g)
    (finite : ∀ s, f ≠ .infinity s) (finite' : ∀ s, g ≠ .infinity s) :
    (unit : Int) ∣ level f * level g := by
  cases f with
  | infinity s => exact absurd rfl (finite s)
  | notANumber => simp [level]
  | zero s => simp [level]
  | finite s m e pos =>
    cases g with
    | infinity s => exact absurd rfl (finite' s)
    | notANumber => simp [level]
    | zero s => simp [level]
    | finite s' m' e' pos' =>
      rw [level, level, apply_mul, ← Int.natCast_mul,
        size_mul_size m m' shape.1.2.1 shape'.1.2.1, Int.natCast_mul]
      cases s * s'
      · exact Int.dvd_neg.mpr (Int.dvd_mul_left _ _)
      · exact Int.dvd_mul_left _ _

/-- Two numbers, other than a zero and an infinity. -/
structure Scalable (a b : Float) : Prop where
  left : IsNumber a
  right : IsNumber b
  not_extreme : ¬ ((levelOf a).natAbs = limit ∧ levelOf b = 0)
  not_extreme' : ¬ (levelOf a = 0 ∧ (levelOf b).natAbs = limit)

theorem not_infinity_of_natAbs (finite : (levelOf a).natAbs ≠ limit) (s : Sign) :
    unpacked a ≠ .infinity s := by
  refine not_infinity (fun top => finite ?_) (fun bottom => finite ?_) s
  · rw [levelOf, top, Int.natAbs_natCast]
  · rw [levelOf, bottom, Int.natAbs_neg, Int.natAbs_natCast]

theorem exists_infinity (infinite : (levelOf a).natAbs = limit) :
    ∃ s, unpacked a = .infinity s := by
  by_cases top : levelOf a = limit
  · exact ⟨.positive, unpacked_of_levelOf_eq_limit top⟩
  · exact ⟨.negative, unpacked_of_levelOf_eq_neg_limit (by omega)⟩

theorem zero_or_not_isNumber (zero : levelOf a = 0) :
    (∃ s, unpacked a = .zero s) ∨ unpacked a = .notANumber := by
  have high := limit_pos
  rw [levelOf] at zero
  generalize unpacked a = f at zero
  cases f with
  | notANumber => exact .inr rfl
  | zero s => exact .inl ⟨s, rfl⟩
  | infinity s => cases s <;> simp only [level, Sign.apply] at zero <;> omega
  | finite s m e pos =>
    have := size_pos e pos
    cases s <;> simp only [level, Sign.apply] at zero <;> omega

/-- The product of an infinity and a number other than zero. -/
theorem signedTimes_apply {m n : Nat} (s t : Sign) (pos : 0 < m) (pos' : 0 < n)
    (infinite : m = limit ∨ n = limit) :
    signedTimes (s.apply m) (t.apply n) = level (.infinity (s * t)) := by
  have sign (s : Sign) {n : Nat} (pos : 0 < n) : (s.apply n).sign = s.apply 1 := by
    cases s
    · exact (Int.sign_neg n).trans (congrArg Neg.neg (Int.sign_natCast_of_ne_zero pos.ne'))
    · exact Int.sign_natCast_of_ne_zero pos.ne'
  have natAbs (s : Sign) (n : Nat) : (s.apply n).natAbs = n := by
    cases s
    · exact (Int.natAbs_neg n).trans (Int.natAbs_natCast n)
    · exact Int.natAbs_natCast n
  rw [signedTimes, natAbs, natAbs, if_pos infinite, sign s pos, sign t pos', apply_mul, level]
  cases s * t
  · exact (Int.neg_mul _ _).trans (congrArg Neg.neg (Int.one_mul _))
  · exact Int.one_mul _

theorem mul_stores_signed {f g : UnpackedFloat} (shape : Canonical f) (shape' : Canonical g)
    (number : f ≠ .notANumber) (number' : g ≠ .notANumber)
    (extreme : ¬ ((level f).natAbs = limit ∧ level g = 0))
    (extreme' : ¬ (level f = 0 ∧ (level g).natAbs = limit)) :
    Stores (UnpackedFloat.mul Format.binary64 f g) (signedTimes (level f) (level g)) := by
  have high := limit_pos
  have infinite (s : Sign) : Stores (.infinity s) (level (.infinity s)) :=
    stores_level (f := .infinity s) trivial (by simp)
  have natAbs (s : Sign) : (level (.infinity s)).natAbs = limit := by
    cases s
    · exact (Int.natAbs_neg _).trans (Int.natAbs_natCast _)
    · exact Int.natAbs_natCast _
  -- an infinite factor, on the left or on the right, makes the product infinite
  rcases level_cases shape with ⟨s, rfl, -⟩ | ⟨finite, low, up⟩
  · cases g with
    | notANumber => exact absurd rfl number'
    | zero t => exact absurd ⟨natAbs s, rfl⟩ extreme
    | infinity t =>
      rw [level, level, signedTimes_apply s t high high (.inl rfl)]
      exact infinite (s * t)
    | finite t m e pos =>
      rw [level, level, signedTimes_apply s t high (size_pos e pos) (.inl rfl)]
      exact infinite (s * t)
  · rcases level_cases shape' with ⟨t, rfl, -⟩ | ⟨finite', low', up'⟩
    · cases f with
      | notANumber => exact absurd rfl number
      | zero s => exact absurd ⟨rfl, natAbs t⟩ extreme'
      | infinity s => exact absurd rfl (finite s)
      | finite s m e pos =>
        rw [level, level, signedTimes_apply s t (size_pos e pos) high (.inr rfl)]
        exact infinite (s * t)
    · have inside : ¬ ((level f).natAbs = limit ∨ (level g).natAbs = limit) := by omega
      rw [signedTimes, if_neg inside]
      exact mul_stores shape shape' number number' finite finite'

theorem Scalable.levelOf_mul (h : Scalable a b) :
    IsNumber (a * b) ∧ levelOf (a * b) = signedTimes (levelOf a) (levelOf b) := by
  obtain ⟨g, rfl, isNumber, value⟩ := mul_stores_signed (canonical_unpacked a)
    (canonical_unpacked b) h.left h.right h.not_extreme h.not_extreme'
  exact ⟨isNumber, value⟩

theorem isNumber_mul : IsNumber (a * b) ↔ Scalable a b := by
  refine ⟨fun number => ?_, fun scalable => scalable.levelOf_mul.1⟩
  -- an infinity times a zero leaves no number, and neither does a factor that is none
  have refuse (product : UnpackedFloat.mul Format.binary64 (unpacked a) (unpacked b) =
      .notANumber) : False := not_isNumber_of_stored (unpacked_mul a b) product number
  refine ⟨fun left => refuse ?_, fun right => refuse ?_, fun ⟨infinite, vanishes⟩ => ?_,
    fun ⟨vanishes, infinite⟩ => ?_⟩
  · rw [left]
    rfl
  · rw [right]
    cases unpacked a <;> rfl
  · obtain ⟨s, left⟩ := exists_infinity infinite
    rcases zero_or_not_isNumber vanishes with ⟨t, right⟩ | right
    · exact refuse (by rw [left, right]; rfl)
    · exact refuse (by rw [left, right]; rfl)
  · obtain ⟨s, right⟩ := exists_infinity infinite
    rcases zero_or_not_isNumber vanishes with ⟨t, left⟩ | left
    · exact refuse (by rw [left, right]; rfl)
    · exact refuse (by rw [left, right]; rfl)

/-! ### Change of sign -/

theorem plus_neg {x y : Int} (opposite : ¬ (x = limit ∧ y = -limit))
    (opposite' : ¬ (x = -limit ∧ y = limit)) : plus (-x) (-y) = -plus x y := by
  have := limit_pos
  unfold plus
  by_cases top : x = limit ∨ y = limit
  · have notTop : ¬ (-x = limit ∨ -y = limit) := by omega
    have bottom : -x = -limit ∨ -y = -limit := by omega
    rw [if_neg notTop, if_pos bottom, if_pos top]
  · by_cases bottom : x = -limit ∨ y = -limit
    · have top' : -x = limit ∨ -y = limit := by omega
      rw [if_pos top', if_neg top, if_pos bottom, Int.neg_neg]
    · have notTop : ¬ (-x = limit ∨ -y = limit) := by omega
      have notBottom : ¬ (-x = -limit ∨ -y = -limit) := by omega
      rw [if_neg notTop, if_neg notBottom, if_neg top, if_neg bottom, ← nearest_neg, Int.neg_add]

theorem signedTimes_neg {x y : Int}
    (divides : x.natAbs ≠ limit → y.natAbs ≠ limit → (unit : Int) ∣ x * y) :
    signedTimes (-x) y = -signedTimes x y := by
  unfold signedTimes
  rw [Int.natAbs_neg, Int.sign_neg]
  split
  next => rw [Int.neg_mul, Int.neg_mul]
  next finite =>
    rw [not_or] at finite
    rw [Int.neg_mul, Int.neg_ediv_of_dvd (divides finite.1 finite.2), nearest_neg]

/-- `b` is `a` with the sign `s`, or neither is a number. The sign of zero is left open. -/
structure Turned (s : Sign) (a b : Float) : Prop where
  isNumber : IsNumber a ↔ IsNumber b
  level : levelOf b = s.apply (levelOf a)

theorem turned_neg (a : Float) : Turned .negative a (-a) where
  isNumber := isNumber_neg.symm
  level := levelOf_neg a

namespace Turned

theorem natAbs (h : Turned s a a') : (levelOf a').natAbs = (levelOf a).natAbs := by
  rw [h.level]
  cases s
  · exact Int.natAbs_neg _
  · rfl

theorem addable (h : Turned s a a') (k : Turned s b b') (addable : Addable a b) :
    Addable a' b' := by
  obtain ⟨left, right, opposite, opposite'⟩ := addable
  refine ⟨h.isNumber.mp left, k.isNumber.mp right, ?_, ?_⟩ <;>
    rw [h.level, k.level] <;> cases s <;> simp only [Sign.apply] <;> omega

theorem symm (h : Turned s a a') : Turned s a' a where
  isNumber := h.isNumber.symm
  level := by
    rw [h.level]
    cases s
    · exact (Int.neg_neg _).symm
    · rfl

theorem add (h : Turned s a a') (k : Turned s b b') : Turned s (a + b) (a' + b') := by
  by_cases addable : Addable a b
  · have addable' := h.addable k addable
    refine ⟨by simp [isNumber_add, addable, addable'], ?_⟩
    rw [addable.levelOf_add.2, addable'.levelOf_add.2, h.level, k.level]
    cases s
    · exact plus_neg addable.not_opposite addable.not_opposite'
    · rfl
  · -- where the sum is no number, it has level zero on both sides
    have addable' : ¬ Addable a' b' := fun other => addable (h.symm.addable k.symm other)
    refine ⟨by simp [isNumber_add, addable, addable'], ?_⟩
    rw [levelOf_of_not_isNumber (mt isNumber_add.mp addable),
      levelOf_of_not_isNumber (mt isNumber_add.mp addable')]
    cases s <;> rfl

theorem neg (h : Turned s a a') : Turned s (-a) (-a') where
  isNumber := isNumber_neg.trans (h.isNumber.trans isNumber_neg.symm)
  level := by
    rw [levelOf_neg, levelOf_neg, h.level]
    cases s <;> rfl

theorem sub (h : Turned s a a') (k : Turned s b b') : Turned s (a - b) (a' - b') := by
  have sum := h.add k.neg
  refine ⟨?_, ?_⟩
  · rw [IsNumber, IsNumber, unpacked_sub, unpacked_sub]
    exact sum.isNumber
  · rw [levelOf, levelOf, unpacked_sub, unpacked_sub]
    exact sum.level

theorem scalable (h : Turned s a a') (scalable : Scalable a b) : Scalable a' b := by
  obtain ⟨left, right, extreme, extreme'⟩ := scalable
  have zero : levelOf a' = 0 ↔ levelOf a = 0 := by
    rw [h.level]
    cases s <;> simp [Sign.apply]
  exact ⟨h.isNumber.mp left, right, by rwa [h.natAbs], by rwa [zero]⟩

/-- Products with a fixed factor. -/
theorem mul (h : Turned s a a') (p : Float) : Turned s (a * p) (a' * p) := by
  by_cases scalable : Scalable a p
  · have scalable' := h.scalable scalable
    refine ⟨by simp [isNumber_mul, scalable, scalable'], ?_⟩
    rw [scalable.levelOf_mul.2, scalable'.levelOf_mul.2, h.level]
    cases s
    · refine signedTimes_neg fun finite finite' => ?_
      exact unit_dvd (canonical_unpacked a) (canonical_unpacked p) (not_infinity_of_natAbs finite)
        (not_infinity_of_natAbs finite')
    · rfl
  · have scalable' : ¬ Scalable a' p := fun other => scalable (h.symm.scalable other)
    refine ⟨by simp [isNumber_mul, scalable, scalable'], ?_⟩
    rw [levelOf_of_not_isNumber (mt isNumber_mul.mp scalable),
      levelOf_of_not_isNumber (mt isNumber_mul.mp scalable')]
    cases s <;> rfl

end Turned

end Binary64

end TropicalAlgebra
