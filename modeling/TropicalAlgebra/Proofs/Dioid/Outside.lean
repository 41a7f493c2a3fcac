import TropicalAlgebra.Proofs.Dioid.Binary64
import TropicalAlgebra.Proofs.Scalar.Binary64.Signs

/-!
# Scalars outside the domain

What becomes of a scalar that is not an element, be it given by a caller or the result of an
overflow. In a sum it comes out on top unless it is no number and stands on the left, or is negative
in max-times. In a product it stays outside. But its inverse is zero, and so is a quotient by it.
-/

namespace TropicalAlgebra

open Float.Model Float.Model.UnpackedFloat

namespace Binary64

variable {a b : Float} {s : Sign}

/-! ### Sums and products with an extreme operand -/

theorem levelOf_add_of_top (top : levelOf a = limit) (number : IsNumber (a + b)) :
    levelOf (a + b) = limit := by
  rw [(isNumber_add.mp number).levelOf_add.2, top, plus_limit]

theorem levelOf_add_of_bottom (bottom : levelOf a = -limit) (number : IsNumber (a + b)) :
    levelOf (a + b) = -limit := by
  have addable := isNumber_add.mp number
  have other : levelOf b ≠ limit := fun top => addable.not_opposite' ⟨bottom, top⟩
  rw [addable.levelOf_add.2, bottom, plus_neg_limit other]

theorem natAbs_levelOf_mul_of_top (top : levelOf a = limit) (number : IsNumber (a * b)) :
    (levelOf (a * b)).natAbs = limit := by
  have scalable := isNumber_mul.mp number
  have nonzero : levelOf b ≠ 0 := fun zero => scalable.not_extreme ⟨by simp [top], zero⟩
  have high := limit_pos
  have sign : (limit : Int).sign = 1 := Int.sign_natCast_of_ne_zero high.ne'
  rw [scalable.levelOf_mul.2, signedTimes, top, Int.natAbs_natCast, if_pos (.inl rfl), sign,
    Int.one_mul, Int.natAbs_mul, Int.natAbs_sign_of_ne_zero nonzero, Nat.one_mul,
    Int.natAbs_natCast]

theorem levelOf_mul_of_zero (zero : levelOf a = 0) (number : IsNumber (a * b)) :
    levelOf (a * b) = 0 := by
  have scalable := isNumber_mul.mp number
  have finite : (levelOf b).natAbs ≠ limit := fun top => scalable.not_extreme' ⟨zero, top⟩
  have high := limit_pos
  rw [scalable.levelOf_mul.2, signedTimes, zero, if_neg (by simp; omega), Int.zero_mul,
    Int.zero_ediv, nearest_zero]

/-! ### Reciprocals -/

theorem unpacked_div (a b : Float) :
    unpacked (a / b) = unpack Format.binary64
      (pack Format.binary64 (UnpackedFloat.div Format.binary64 (unpacked a) (unpacked b))) := rfl

theorem one_div_infinity (infinite : unpacked a = .infinity .positive) :
    Scalar.ofInt 1 / a == Scalar.ofInt 0 := by
  have stored : unpacked (Scalar.ofInt 1 / a) = .zero .positive := by
    rw [unpacked_div, unpacked_one, infinite]
    exact unpack_pack (f := .zero .positive) trivial
  rw [beq_iff, IsNumber, levelOf, stored]
  exact ⟨by simp, isNumber_zero, levelOf_zero.symm⟩

theorem one_div_zero (vanishes : unpacked a = .zero .positive) :
    Scalar.ofInt 1 / a == Scalar.infinity := by
  have stored : unpacked (Scalar.ofInt 1 / a) = .infinity .positive := by
    rw [unpacked_div, unpacked_one, vanishes]
    exact unpack_pack (f := .infinity .positive) trivial
  rw [beq_iff, IsNumber, levelOf, stored]
  exact ⟨by simp, isNumber_infinity, levelOf_infinity.symm⟩

/-- The negative of the infinity that is not the zero of the dioid. -/
theorem opposite_beq_zero {zero : Float} {edge : Int} (isZero : IsNumber zero)
    (level : levelOf zero = -edge) (number : IsNumber a) (escaped : levelOf a = edge) :
    Dioid.opposite zero a == zero := by
  unfold Dioid.opposite
  split
  next same => exact same
  next =>
    rw [beq_iff, isNumber_neg, levelOf_neg, escaped]
    exact ⟨number, isZero, level.symm⟩

theorem reciprocal_beq_zero {zero : Float} (inverse : Scalar.ofInt 1 / a == zero) :
    Dioid.reciprocal zero a == zero := by
  unfold Dioid.reciprocal
  split
  next same => exact same
  next => exact inverse

/-! ### The sign of an underflow -/

/-- What rounds to zero keeps its sign. -/
theorem sign_of_hasMagnitude {f : UnpackedFloat} {t : Sign} {n : Nat}
    (magnitude : HasMagnitude f s n)
    (vanishes : unpack Format.binary64 (pack Format.binary64 f) = .zero t) : t = s := by
  rcases magnitude with ⟨rfl, -⟩ | ⟨m, e, pos, rfl, shape, -⟩
  · rw [unpack_pack (f := .zero s) trivial] at vanishes
    exact (UnpackedFloat.zero.inj vanishes).symm
  · by_cases top : e ≤ 971
    · rw [unpack_pack (f := .finite s m e pos) ⟨shape, top⟩] at vanishes
      nomatch vanishes
    · rw [unpack_pack_overflow pos (by omega)] at vanishes
      nomatch vanishes

theorem positive_cases (positive : 0 < levelOf a) :
    unpacked a = .infinity .positive ∨ ∃ m e pos, unpacked a = .finite .positive m e pos := by
  have high := limit_pos
  rw [levelOf] at positive
  generalize unpacked a = f at positive
  cases f with
  | notANumber => exact absurd positive (lt_irrefl 0)
  | zero s => exact absurd positive (lt_irrefl 0)
  | infinity s =>
    cases s with
    | negative =>
      simp only [level, Sign.apply] at positive
      omega
    | positive => exact .inl rfl
  | finite s m e pos =>
    cases s with
    | negative =>
      simp only [level, Sign.apply] at positive
      omega
    | positive => exact .inr ⟨m, e, pos, rfl⟩

/-- If this is a zero, then it is the positive one. -/
def PositiveIfZero (a : Float) : Prop := unpacked a ≠ .zero .negative

/-- A product of positive numbers may underflow to zero, but not to the negative one. -/
theorem positiveIfZero_mul (ha : 0 < levelOf a) (hb : 0 < levelOf b) : PositiveIfZero (a * b) := by
  have infinite : unpack Format.binary64 (pack Format.binary64 (.infinity .positive)) ≠
      .zero .negative := by
    rw [unpack_pack (f := .infinity .positive) trivial]
    simp
  have canonical := canonical_unpacked a
  have canonical' := canonical_unpacked b
  rw [PositiveIfZero, unpacked_mul]
  rcases positive_cases ha with left | ⟨m, e, pos, left⟩
  · rcases positive_cases hb with right | ⟨m', e', pos', right⟩ <;>
      rw [left, right] <;> exact infinite
  · rcases positive_cases hb with right | ⟨m', e', pos', right⟩
    · rw [left, right]
      exact infinite
    · -- only the product of two finite factors is rounded
      rw [left] at canonical ⊢
      rw [right] at canonical' ⊢
      have low := canonical.1.2.1
      have low' := canonical'.1.2.1
      have magnitude := roundWithAccuracy_hasMagnitude (s := .positive) (Nat.mul_pos pos pos')
        (by omega) (le_lastUnit_mul canonical.1 canonical'.1 pos pos')
      intro vanishes
      nomatch sign_of_hasMagnitude magnitude vanishes

end Binary64

namespace AlgebraName

open Binary64

variable (n : AlgebraName) {a b : Float}

/-! ### Sums -/

/-- The rank of a number, be it an element or not. -/
def rankedNumbers : (n : AlgebraName) → (n.dioid : Dioid Float).Ranked {a | IsNumber a} Int
  | maxPlus => Dioid.rankedByLarger (fun _ number => number) rfl
  | minPlus => Dioid.rankedBySmaller (fun _ number => number) rfl
  | maxTimes => Dioid.rankedByLarger (fun _ number => number) rfl
  | minTimes => Dioid.rankedBySmaller (fun _ number => number) rfl

/-- A scalar that is no element but loses against every element, on either side of a sum. -/
def Loses (a : Float) : Prop := n = .maxTimes ∧ levelOf a < 0

theorem isNumber_of_mem (member : a ∈ (n.dioid : Dioid Float)) : IsNumber a := by
  cases n with
  | maxPlus => exact (Dioid.mem_maxPlus_float.mp member).1
  | minPlus => exact (Dioid.mem_minPlus_float.mp member).1
  | maxTimes => exact (Dioid.mem_maxTimes_float.mp member).1
  | minTimes => exact (Dioid.mem_minTimes_float.mp member).1

theorem Loses.isNumber {n : AlgebraName} (loses : n.Loses a) : IsNumber a := by
  by_contra none
  exact loses.2.ne (levelOf_of_not_isNumber none)

theorem Loses.rank_lt {n : AlgebraName} (loses : n.Loses a) (member : b ∈ (n.dioid : Dioid Float)) :
    n.rankedNumbers.rank a < n.rankedNumbers.rank b := by
  obtain ⟨rfl, negative⟩ := loses
  exact negative.trans_le (Dioid.mem_maxTimes_float.mp member).2.1

theorem Loses.not_mem {n : AlgebraName} (loses : n.Loses a) : a ∉ (n.dioid : Dioid Float) :=
  fun member => lt_irrefl _ (loses.rank_lt member)

/-- The domain ends above, and in max-times also below. -/
theorem mem_of_rank_le (member : a ∈ (n.dioid : Dioid Float)) (number : IsNumber b)
    (lower : n.rankedNumbers.rank b ≤ n.rankedNumbers.rank a) :
    b ∈ (n.dioid : Dioid Float) ∨ n.Loses b := by
  have bounds := levelOf_bounds a
  cases n with
  | maxPlus =>
    have inside := (Dioid.mem_maxPlus_float.mp member).2
    have order : levelOf b ≤ levelOf a := lower
    exact .inl (Dioid.mem_maxPlus_float.mpr ⟨number, by omega⟩)
  | minPlus =>
    have inside := (Dioid.mem_minPlus_float.mp member).2
    have order : levelOf a ≤ levelOf b := neg_le_neg_iff.mp lower
    exact .inl (Dioid.mem_minPlus_float.mpr ⟨number, by omega⟩)
  | maxTimes =>
    have inside := (Dioid.mem_maxTimes_float.mp member).2.2
    have order : levelOf b ≤ levelOf a := lower
    by_cases negative : levelOf b < 0
    · exact .inr ⟨rfl, negative⟩
    · exact .inl (Dioid.mem_maxTimes_float.mpr ⟨number, by omega, by omega⟩)
  | minTimes =>
    have inside := (Dioid.mem_minTimes_float.mp member).2
    have order : levelOf a ≤ levelOf b := neg_le_neg_iff.mp lower
    exact .inl (Dioid.mem_minTimes_float.mpr ⟨number, by omega⟩)

/-- A comparison with what is no number fails, and the sum is then the second operand. -/
theorem add_eq_right (none : ¬ (IsNumber a ∧ IsNumber b)) : (n.dioid : Dioid Float).add a b = b := by
  have above : ¬ a ≤ b := fun le => none ⟨(le_iff.mp le).1, (le_iff.mp le).2.1⟩
  have below : ¬ b ≤ a := fun le => none ⟨(le_iff.mp le).2.1, (le_iff.mp le).1⟩
  cases n with
  | maxPlus => exact if_neg below
  | minPlus => exact if_neg above
  | maxTimes => exact if_neg below
  | minTimes => exact if_neg above

/-- A sum of two scalars is an element if they are, or if it returns one of them that is. -/
theorem add_mem_iff_or_loses :
    (n.dioid : Dioid Float).add a b ∈ (n.dioid : Dioid Float) ↔
      (a ∈ (n.dioid : Dioid Float) ∧ b ∈ (n.dioid : Dioid Float)) ∨
        ((¬ IsNumber a ∨ n.Loses a) ∧ b ∈ (n.dioid : Dioid Float)) ∨
        (n.Loses b ∧ a ∈ (n.dioid : Dioid Float)) := by
  by_cases numbers : IsNumber a ∧ IsNumber b
  · obtain ⟨number, number'⟩ := numbers
    have rank := n.rankedNumbers.rank_add number number'
    rcases n.rankedNumbers.add_cases a b with same | same <;> rw [same] at rank ⊢
    · -- the first operand has the higher rank, or they are level
      have lower := max_eq_left_iff.mp rank.symm
      constructor
      · intro ha
        exact (n.mem_of_rank_le ha number' lower).elim (fun hb => .inl ⟨ha, hb⟩)
          fun loses => .inr (.inr ⟨loses, ha⟩)
      · rintro (⟨ha, -⟩ | ⟨none | loses, hb⟩ | ⟨-, ha⟩)
        · exact ha
        · exact absurd number none
        · exact absurd (loses.rank_lt hb) lower.not_gt
        · exact ha
    · -- the second operand has
      have lower := max_eq_right_iff.mp rank.symm
      constructor
      · intro hb
        exact (n.mem_of_rank_le hb number lower).elim (fun ha => .inl ⟨ha, hb⟩)
          fun loses => .inr (.inl ⟨.inr loses, hb⟩)
      · rintro (⟨-, hb⟩ | ⟨-, hb⟩ | ⟨loses, ha⟩)
        · exact hb
        · exact hb
        · exact absurd (loses.rank_lt ha) lower.not_gt
  · rw [n.add_eq_right numbers]
    constructor
    · intro hb
      have none : ¬ IsNumber a := fun number => numbers ⟨number, n.isNumber_of_mem hb⟩
      exact .inr (.inl ⟨.inl none, hb⟩)
    · rintro (⟨-, hb⟩ | ⟨-, hb⟩ | ⟨loses, ha⟩)
      · exact hb
      · exact hb
      · exact absurd ⟨n.isNumber_of_mem ha, loses.isNumber⟩ numbers

theorem isNumber_of_term (term : a ∈ n.terms) : IsNumber a := by
  cases n with
  | maxPlus | minPlus => exact term
  | maxTimes | minTimes => exact term.1

theorem not_loses_of_term (term : a ∈ n.terms) : ¬ n.Loses a := by
  rintro ⟨rfl, negative⟩
  exact not_lt_of_ge term.2 negative

/-- Among the sums of products no scalar loses that is not an element. -/
theorem add_mem_iff (ha : a ∈ n.terms) (hb : b ∈ n.terms) :
    (n.dioid : Dioid Float).add a b ∈ (n.dioid : Dioid Float) ↔
      a ∈ (n.dioid : Dioid Float) ∧ b ∈ (n.dioid : Dioid Float) := by
  have number := n.isNumber_of_term ha
  have stays := n.not_loses_of_term ha
  have stays' := n.not_loses_of_term hb
  rw [n.add_mem_iff_or_loses]
  simp only [number, stays, stays', not_true_eq_false, or_false, false_and]

/-! ### Products and inverses -/

/-- A value that has left the domain has no product that is an element. -/
theorem mem_of_mul_mem (ha : a ∈ n.terms)
    (product : (n.dioid : Dioid Float).mul a b ∈ (n.dioid : Dioid Float)) :
    a ∈ (n.dioid : Dioid Float) := by
  cases n with
  | maxPlus =>
    have inside := Dioid.mem_maxPlus_float.mp product
    exact Dioid.mem_maxPlus_float.mpr ⟨ha, fun top => inside.2 (levelOf_add_of_top top inside.1)⟩
  | minPlus =>
    have inside := Dioid.mem_minPlus_float.mp product
    exact Dioid.mem_minPlus_float.mpr
      ⟨ha, fun bottom => inside.2 (levelOf_add_of_bottom bottom inside.1)⟩
  | maxTimes =>
    have inside : IsNumber (a * b) ∧ 0 ≤ levelOf (a * b) ∧ levelOf (a * b) ≠ limit :=
      Dioid.mem_maxTimes_float.mp product
    refine Dioid.mem_maxTimes_float.mpr ⟨ha.1, ha.2, fun top => ?_⟩
    have := natAbs_levelOf_mul_of_top top inside.1
    omega
  | minTimes =>
    have inside : IsNumber (a * b) ∧ 0 < levelOf (a * b) := Dioid.mem_minTimes_float.mp product
    have nonzero : levelOf a ≠ 0 := fun zero => inside.2.ne' (levelOf_mul_of_zero zero inside.1)
    exact Dioid.mem_minTimes_float.mpr ⟨ha.1, lt_of_le_of_ne ha.2 nonzero.symm⟩

/-- The inverse of a value that has left the domain is zero. -/
theorem isZero_inv (ha : a ∈ n.terms)
    (positive : n = .minTimes → PositiveIfZero a) (outside : a ∉ (n.dioid : Dioid Float)) :
    (n.dioid : Dioid Float).isZero ((n.dioid : Dioid Float).inv a) = true := by
  cases n with
  | maxPlus =>
    have top : levelOf a = limit := by
      by_contra inside
      exact outside (Dioid.mem_maxPlus_float.mpr ⟨ha, inside⟩)
    exact opposite_beq_zero isNumber_negInfinity levelOf_negInfinity ha top
  | minPlus =>
    have bottom : levelOf a = -limit := by
      by_contra inside
      exact outside (Dioid.mem_minPlus_float.mpr ⟨ha, inside⟩)
    have level : levelOf Scalar.infinity = - -limit := levelOf_infinity.trans (Int.neg_neg _).symm
    exact opposite_beq_zero isNumber_infinity level ha bottom
  | maxTimes =>
    have top : levelOf a = limit := by
      by_contra inside
      exact outside (Dioid.mem_maxTimes_float.mpr ⟨ha.1, ha.2, inside⟩)
    exact reciprocal_beq_zero (one_div_infinity (unpacked_of_levelOf_eq_limit top))
  | minTimes =>
    have zero : levelOf a = 0 := by
      by_contra inside
      exact outside (Dioid.mem_minTimes_float.mpr ⟨ha.1, lt_of_le_of_ne ha.2 (Ne.symm inside)⟩)
    have vanishes : unpacked a = .zero .positive := by
      rcases zero_or_not_isNumber zero with ⟨s, stored⟩ | none
      · cases s with
        | negative => exact absurd stored (positive rfl)
        | positive => exact stored
      · exact absurd none ha.1
    exact reciprocal_beq_zero (one_div_zero vanishes)

end AlgebraName

end TropicalAlgebra
