import TropicalAlgebra.DefaultAlgebra
import TropicalAlgebra.Proofs.Dioid.Ranked
import TropicalAlgebra.Proofs.Scalar.Binary64.Arithmetic

/-!
# The tropical dioids over floating-point numbers

Sums and products of floating-point numbers are rounded and hence not associative, but they remain
monotone. The level of a number, or its negative where smaller numbers win, ranks the scalars of
each of the four dioids.
-/

namespace TropicalAlgebra

open Binary64

namespace Binary64

open Float.Model.UnpackedFloat

variable {a b : Float}

/-! ### Constants -/

theorem unpacked_infinity : unpacked Scalar.infinity = .infinity .positive := rfl

theorem unpacked_negInfinity : unpacked Scalar.negInfinity = .infinity .negative := rfl

theorem unpacked_zero : unpacked (Scalar.ofInt 0) = .zero .positive := rfl

theorem unpacked_one :
    unpacked (Scalar.ofInt 1) = .finite .positive (2 ^ 52) (-52) (by decide) := rfl

theorem isNumber_infinity : IsNumber Scalar.infinity := by
  simp [IsNumber, unpacked_infinity]

theorem isNumber_negInfinity : IsNumber Scalar.negInfinity := by
  simp [IsNumber, unpacked_negInfinity]

theorem isNumber_zero : IsNumber (Scalar.ofInt 0) := by
  simp [IsNumber, unpacked_zero]

theorem isNumber_one : IsNumber (Scalar.ofInt 1) := by
  simp [IsNumber, unpacked_one]

theorem levelOf_infinity : levelOf Scalar.infinity = limit := by
  rw [levelOf, unpacked_infinity]
  rfl

theorem levelOf_negInfinity : levelOf Scalar.negInfinity = -limit := by
  rw [levelOf, unpacked_negInfinity]
  rfl

theorem levelOf_zero : levelOf (Scalar.ofInt 0) = 0 := by
  rw [levelOf, unpacked_zero]
  rfl

theorem levelOf_one : levelOf (Scalar.ofInt 1) = unit := by
  have moved := size_mul_two_pow 1 52 (e := -52) (by decide)
  rw [levelOf, unpacked_one, level, Sign.apply, unit]
  exact congrArg Nat.cast moved

/-! ### Tests -/

theorem isNumber_iff : Scalar.isNumber a = true ↔ IsNumber a := by
  rw [Scalar.isNumber, beq_iff]
  exact ⟨fun h => h.1, fun h => ⟨h, h, rfl⟩⟩

theorem isFinite_iff :
    Scalar.isFinite a = true ↔ IsNumber a ∧ -limit < levelOf a ∧ levelOf a < limit := by
  simp only [Scalar.isFinite, Bool.and_eq_true, decide_eq_true_eq, lt_iff, levelOf_infinity,
    levelOf_negInfinity, isNumber_infinity, isNumber_negInfinity, true_and]
  tauto

theorem orderEq_iff (number : IsNumber a) (number' : IsNumber b) :
    Scalar.orderEq a b = true ↔ levelOf a = levelOf b := by
  simp only [Scalar.orderEq, Bool.and_eq_true, Bool.not_eq_true', decide_eq_false_iff_not, lt_iff,
    number, number', true_and]
  omega

end Binary64

namespace Dioid

variable {a b : Float}

theorem mem_maxPlus_float : a ∈ (maxPlus : Dioid Float) ↔ IsNumber a ∧ levelOf a ≠ limit := by
  have infinite : a == Scalar.infinity ↔ IsNumber a ∧ levelOf a = limit := by
    rw [beq_iff, levelOf_infinity]
    simp [isNumber_infinity]
  rw [mem_iff_contains]
  simp only [maxPlus, bne, Bool.and_eq_true, isNumber_iff, Bool.not_eq_true', ← Bool.not_eq_true,
    infinite]
  tauto

theorem mem_minPlus_float : a ∈ (minPlus : Dioid Float) ↔ IsNumber a ∧ levelOf a ≠ -limit := by
  have infinite : a == Scalar.negInfinity ↔ IsNumber a ∧ levelOf a = -limit := by
    rw [beq_iff, levelOf_negInfinity]
    simp [isNumber_negInfinity]
  rw [mem_iff_contains]
  simp only [minPlus, bne, Bool.and_eq_true, isNumber_iff, Bool.not_eq_true', ← Bool.not_eq_true,
    infinite]
  tauto

theorem mem_maxTimes_float :
    a ∈ (maxTimes : Dioid Float) ↔ IsNumber a ∧ 0 ≤ levelOf a ∧ levelOf a ≠ limit := by
  have bounds := levelOf_bounds a
  have high := limit_pos
  rw [mem_iff_contains]
  simp only [maxTimes, Bool.and_eq_true, isFinite_iff, decide_eq_true_eq, le_iff, levelOf_zero,
    isNumber_zero, true_and]
  constructor
  · rintro ⟨⟨number, -, top⟩, -, nonneg⟩
    exact ⟨number, nonneg, top.ne⟩
  · rintro ⟨number, nonneg, top⟩
    exact ⟨⟨number, by omega, by omega⟩, number, nonneg⟩

theorem mem_minTimes_float : a ∈ (minTimes : Dioid Float) ↔ IsNumber a ∧ 0 < levelOf a := by
  rw [mem_iff_contains]
  simp only [minTimes, Bool.and_eq_true, isNumber_iff, decide_eq_true_eq, lt_iff, levelOf_zero,
    isNumber_zero, true_and]
  tauto

/-! ### Ranks -/

section Ranks

variable {d : Dioid Float} {terms : Set Float}

/-- Larger numbers have a higher rank. -/
def rankedByLarger (numbers : ∀ a ∈ terms, IsNumber a) (add : d.add = larger) :
    d.Ranked terms Int where
  rank := levelOf
  beq_iff ha hb := by simp [Binary64.beq_iff, numbers _ ha, numbers _ hb]
  orderEq_iff ha hb := Binary64.orderEq_iff (numbers _ ha) (numbers _ hb)
  add_cases a b := by
    rw [add, larger]
    exact ite_eq_or_eq _ _ _
  rank_add {a b} ha hb := by
    have order : b ≤ a ↔ levelOf b ≤ levelOf a := by simp [le_iff, numbers a ha, numbers b hb]
    rw [add, larger]
    split
    next le => exact (max_eq_left (order.mp le)).symm
    next gt => exact (max_eq_right (le_of_not_ge (mt order.mpr gt))).symm

/-- Smaller numbers have a higher rank. -/
def rankedBySmaller (numbers : ∀ a ∈ terms, IsNumber a) (add : d.add = smaller) :
    d.Ranked terms Int where
  rank a := -levelOf a
  beq_iff ha hb := by simp [Binary64.beq_iff, numbers _ ha, numbers _ hb]
  orderEq_iff ha hb :=
    (Binary64.orderEq_iff (numbers _ ha) (numbers _ hb)).trans neg_inj.symm
  add_cases a b := by
    rw [add, smaller]
    exact ite_eq_or_eq _ _ _
  rank_add {a b} ha hb := by
    have order : a ≤ b ↔ levelOf a ≤ levelOf b := by simp [le_iff, numbers a ha, numbers b hb]
    rw [add, smaller]
    split
    next le => exact (max_eq_left (neg_le_neg (order.mp le))).symm
    next gt => exact (max_eq_right (neg_le_neg (le_of_not_ge (mt order.mpr gt)))).symm

end Ranks

/-! ### The four dioids -/

/-- A number that is not negative. Products in max-times and in min-times may leave the elements,
but not these numbers. -/
def IsWeight (a : Float) : Prop := IsNumber a ∧ 0 ≤ levelOf a

theorem addable_of_maxPlus (ha : a ∈ (maxPlus : Dioid Float)) (hb : b ∈ (maxPlus : Dioid Float)) :
    Addable a b := by
  rw [mem_maxPlus_float] at ha hb
  exact ⟨ha.1, hb.1, fun h => ha.2 h.1, fun h => hb.2 h.2⟩

theorem addable_of_minPlus (ha : a ∈ (minPlus : Dioid Float)) (hb : b ∈ (minPlus : Dioid Float)) :
    Addable a b := by
  rw [mem_minPlus_float] at ha hb
  exact ⟨ha.1, hb.1, fun h => hb.2 h.2, fun h => ha.2 h.1⟩

theorem multipliable_of_maxTimes (ha : a ∈ (maxTimes : Dioid Float))
    (hb : b ∈ (maxTimes : Dioid Float)) : Multipliable a b := by
  rw [mem_maxTimes_float] at ha hb
  exact ⟨ha.1, hb.1, ha.2.1, hb.2.1, fun h => ha.2.2 h.1, fun h => hb.2.2 h.2⟩

theorem multipliable_of_minTimes (ha : a ∈ (minTimes : Dioid Float))
    (hb : b ∈ (minTimes : Dioid Float)) : Multipliable a b := by
  rw [mem_minTimes_float] at ha hb
  exact ⟨ha.1, hb.1, ha.2.le, hb.2.le, fun h => hb.2.ne' h.2, fun h => ha.2.ne' h.1⟩

theorem zero_mem_maxPlus : Scalar.negInfinity ∈ (maxPlus : Dioid Float) := by
  have := limit_pos
  rw [mem_maxPlus_float, levelOf_negInfinity]
  exact ⟨isNumber_negInfinity, by omega⟩

theorem one_mem_maxPlus : Scalar.ofInt 0 ∈ (maxPlus : Dioid Float) := by
  have := limit_pos
  rw [mem_maxPlus_float, levelOf_zero]
  exact ⟨isNumber_zero, by omega⟩

theorem zero_mem_minPlus : Scalar.infinity ∈ (minPlus : Dioid Float) := by
  have := limit_pos
  rw [mem_minPlus_float, levelOf_infinity]
  exact ⟨isNumber_infinity, by omega⟩

theorem one_mem_minPlus : Scalar.ofInt 0 ∈ (minPlus : Dioid Float) := by
  have := limit_pos
  rw [mem_minPlus_float, levelOf_zero]
  exact ⟨isNumber_zero, by omega⟩

theorem zero_mem_maxTimes : Scalar.ofInt 0 ∈ (maxTimes : Dioid Float) := by
  have := limit_pos
  rw [mem_maxTimes_float, levelOf_zero]
  exact ⟨isNumber_zero, le_rfl, by omega⟩

theorem one_mem_maxTimes : Scalar.ofInt 1 ∈ (maxTimes : Dioid Float) := by
  have := unit_lt_limit
  rw [mem_maxTimes_float, levelOf_one]
  exact ⟨isNumber_one, by omega, by omega⟩

theorem zero_mem_minTimes : Scalar.infinity ∈ (minTimes : Dioid Float) := by
  have := limit_pos
  rw [mem_minTimes_float, levelOf_infinity]
  exact ⟨isNumber_infinity, by omega⟩

theorem one_mem_minTimes : Scalar.ofInt 1 ∈ (minTimes : Dioid Float) := by
  have := unit_pos
  rw [mem_minTimes_float, levelOf_one]
  exact ⟨isNumber_one, by omega⟩

def monotoneMaxPlus : (maxPlus : Dioid Float).Monotone maxPlus.elements {a | IsNumber a} Int where
  __ := rankedByLarger (d := .maxPlus) (fun _ ha => ha) rfl
  element_factor := id
  factor_term ha := (mem_maxPlus_float.mp ha).1
  zero_factor := zero_mem_maxPlus
  one_factor := one_mem_maxPlus
  mul_term ha hb := (addable_of_maxPlus ha hb).levelOf_add.1
  zero_least {a} _ := levelOf_negInfinity.le.trans (levelOf_bounds a).1
  rank_mul_le {a a' b b'} ha ha' hb hb' left right := by
    change levelOf (a + b) ≤ levelOf (a' + b')
    exact (addable_of_maxPlus ha hb).levelOf_le (addable_of_maxPlus ha' hb') left right
  rank_mul_comm {a b} ha hb := by
    change levelOf (a + b) = levelOf (b + a)
    rw [(addable_of_maxPlus ha hb).levelOf_comm]
  rank_zero_mul {a} ha := by
    change levelOf (Scalar.negInfinity + a) = levelOf Scalar.negInfinity
    rw [(addable_of_maxPlus zero_mem_maxPlus ha).levelOf_add.2, levelOf_negInfinity,
      plus_neg_limit (mem_maxPlus_float.mp ha).2]
  rank_one_mul {a} ha := by
    change levelOf (Scalar.ofInt 0 + a) = levelOf a
    rw [(addable_of_maxPlus one_mem_maxPlus ha).levelOf_add.2, levelOf_zero, plus_zero]

def monotoneMinPlus : (minPlus : Dioid Float).Monotone minPlus.elements {a | IsNumber a} Int where
  __ := rankedBySmaller (d := .minPlus) (fun _ ha => ha) rfl
  element_factor := id
  factor_term ha := (mem_minPlus_float.mp ha).1
  zero_factor := zero_mem_minPlus
  one_factor := one_mem_minPlus
  mul_term ha hb := (addable_of_minPlus ha hb).levelOf_add.1
  zero_least {a} _ := by
    change -levelOf Scalar.infinity ≤ -levelOf a
    exact neg_le_neg ((levelOf_bounds a).2.trans levelOf_infinity.ge)
  rank_mul_le {a a' b b'} ha ha' hb hb' left right := by
    change -levelOf (a + b) ≤ -levelOf (a' + b')
    exact neg_le_neg ((addable_of_minPlus ha' hb').levelOf_le (addable_of_minPlus ha hb)
      (neg_le_neg_iff.mp left) (neg_le_neg_iff.mp right))
  rank_mul_comm {a b} ha hb := by
    change -levelOf (a + b) = -levelOf (b + a)
    rw [(addable_of_minPlus ha hb).levelOf_comm]
  rank_zero_mul {a} ha := by
    change -levelOf (Scalar.infinity + a) = -levelOf Scalar.infinity
    rw [(addable_of_minPlus zero_mem_minPlus ha).levelOf_add.2, levelOf_infinity, plus_limit]
  rank_one_mul {a} ha := by
    change -levelOf (Scalar.ofInt 0 + a) = -levelOf a
    rw [(addable_of_minPlus one_mem_minPlus ha).levelOf_add.2, levelOf_zero, plus_zero]

def monotoneMaxTimes :
    (maxTimes : Dioid Float).Monotone maxTimes.elements {a | IsWeight a} Int where
  __ := rankedByLarger (d := .maxTimes) (fun _ ha => ha.1) rfl
  element_factor := id
  factor_term ha := ⟨(mem_maxTimes_float.mp ha).1, (mem_maxTimes_float.mp ha).2.1⟩
  zero_factor := zero_mem_maxTimes
  one_factor := one_mem_maxTimes
  mul_term ha hb := ⟨(multipliable_of_maxTimes ha hb).levelOf_mul.1,
    (multipliable_of_maxTimes ha hb).levelOf_nonneg⟩
  zero_least ha := levelOf_zero.le.trans ha.2
  rank_mul_le {a a' b b'} ha ha' hb hb' left right := by
    change levelOf (a * b) ≤ levelOf (a' * b')
    exact (multipliable_of_maxTimes ha hb).levelOf_le (multipliable_of_maxTimes ha' hb') left right
  rank_mul_comm {a b} ha hb := by
    change levelOf (a * b) = levelOf (b * a)
    rw [(multipliable_of_maxTimes ha hb).levelOf_comm]
  rank_zero_mul {a} ha := by
    change levelOf (Scalar.ofInt 0 * a) = levelOf (Scalar.ofInt 0)
    rw [(multipliable_of_maxTimes zero_mem_maxTimes ha).levelOf_mul.2, levelOf_zero,
      times_zero (mem_maxTimes_float.mp ha).2.2]
  rank_one_mul {a} ha := by
    change levelOf (Scalar.ofInt 1 * a) = levelOf a
    rw [(multipliable_of_maxTimes one_mem_maxTimes ha).levelOf_mul.2, levelOf_one, times_unit]

def monotoneMinTimes :
    (minTimes : Dioid Float).Monotone minTimes.elements {a | IsWeight a} Int where
  __ := rankedBySmaller (d := .minTimes) (fun _ ha => ha.1) rfl
  element_factor := id
  factor_term ha := ⟨(mem_minTimes_float.mp ha).1, (mem_minTimes_float.mp ha).2.le⟩
  zero_factor := zero_mem_minTimes
  one_factor := one_mem_minTimes
  mul_term ha hb := ⟨(multipliable_of_minTimes ha hb).levelOf_mul.1,
    (multipliable_of_minTimes ha hb).levelOf_nonneg⟩
  zero_least {a} _ := by
    change -levelOf Scalar.infinity ≤ -levelOf a
    exact neg_le_neg ((levelOf_bounds a).2.trans levelOf_infinity.ge)
  rank_mul_le {a a' b b'} ha ha' hb hb' left right := by
    change -levelOf (a * b) ≤ -levelOf (a' * b')
    exact neg_le_neg ((multipliable_of_minTimes ha' hb').levelOf_le
      (multipliable_of_minTimes ha hb) (neg_le_neg_iff.mp left) (neg_le_neg_iff.mp right))
  rank_mul_comm {a b} ha hb := by
    change -levelOf (a * b) = -levelOf (b * a)
    rw [(multipliable_of_minTimes ha hb).levelOf_comm]
  rank_zero_mul {a} ha := by
    change -levelOf (Scalar.infinity * a) = -levelOf Scalar.infinity
    rw [(multipliable_of_minTimes zero_mem_minTimes ha).levelOf_mul.2, levelOf_infinity,
      times_limit]
  rank_one_mul {a} ha := by
    change -levelOf (Scalar.ofInt 1 * a) = -levelOf a
    rw [(multipliable_of_minTimes one_mem_minTimes ha).levelOf_mul.2, levelOf_one, times_unit]

end Dioid

namespace AlgebraName

/-- The scalars among which the sums of products are formed. -/
def terms : AlgebraName → Set Float
  | maxPlus | minPlus => {a | IsNumber a}
  | maxTimes | minTimes => {a | Dioid.IsWeight a}

/-- Rounding leaves the laws intact that do not regroup a product. -/
theorem distributive (n : AlgebraName) : (n.dioid : Dioid Float).Distributive
    (n.dioid : Dioid Float).elements n.terms :=
  match n with
  | maxPlus => Dioid.monotoneMaxPlus.distributive
  | minPlus => Dioid.monotoneMinPlus.distributive
  | maxTimes => Dioid.monotoneMaxTimes.distributive
  | minTimes => Dioid.monotoneMinTimes.distributive

/-- Equal numbers are elements alike. -/
theorem mem_congr (n : AlgebraName) {a b : Float} (ha : a ∈ (n.dioid : Dioid Float))
    (same : a == b) : b ∈ (n.dioid : Dioid Float) := by
  obtain ⟨-, number, level⟩ := beq_iff.mp same
  cases n with
  | maxPlus =>
    rw [dioid, Dioid.mem_maxPlus_float] at ha ⊢
    exact ⟨number, level ▸ ha.2⟩
  | minPlus =>
    rw [dioid, Dioid.mem_minPlus_float] at ha ⊢
    exact ⟨number, level ▸ ha.2⟩
  | maxTimes =>
    rw [dioid, Dioid.mem_maxTimes_float] at ha ⊢
    exact ⟨number, level ▸ ha.2⟩
  | minTimes =>
    rw [dioid, Dioid.mem_minTimes_float] at ha ⊢
    exact ⟨number, level ▸ ha.2⟩

end AlgebraName

end TropicalAlgebra
