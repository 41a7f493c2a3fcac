import TropicalAlgebra.Proofs.Scalar.Binary64.Rounding

/-!
# Rounded results

The exact result of an operation, given by a sign, a mantissa and an exponent, is rounded to 53 bits
and stored. The level of the stored number is the level of the exact result, rounded and cut off at
the infinities.
-/

namespace TropicalAlgebra

namespace Binary64

open Float.Model Float.Model.UnpackedFloat

/-- The exponent of the last unit that a number of this magnitude keeps. -/
def lastUnit (m : Nat) (e : Int) : Int := Format.binary64.targetExponent (totalExponent m e)

theorem lastUnit_eq (m : Nat) (e : Int) : lastUnit m e = max (m.log2 + e - 52) (-1074) := by
  change max ((m.log2 : Int) + 1 + e - 53) (-1074) = _
  omega

theorem log2_mul_two_pow {m : Nat} (pos : 0 < m) (k : Nat) : (m * 2 ^ k).log2 = m.log2 + k := by
  have nonzero := Nat.ne_of_gt pos
  refine (Nat.log2_eq_iff (Nat.ne_of_gt (Nat.mul_pos pos (Nat.two_pow_pos k)))).mpr ⟨?_, ?_⟩
  · rw [Nat.pow_add]
    exact Nat.mul_le_mul_right _ (Nat.log2_self_le nonzero)
  · rw [show m.log2 + k + 1 = m.log2 + 1 + k by omega, Nat.pow_add]
    exact Nat.mul_lt_mul_of_pos_right Nat.lt_log2_self (Nat.two_pow_pos k)

theorem surplus_size {m : Nat} {e : Int} (pos : 0 < m) (low : -2148 ≤ e) (high : e ≤ lastUnit m e) :
    surplus (size m e) = (e + 2148).toNat + (lastUnit m e - e).toNat := by
  rw [surplus, size, log2_mul_two_pow pos]
  rw [lastUnit_eq] at high ⊢
  omega

theorem shiftToTargetExponent_eq {m : Nat} {e : Int} :
    shiftToTargetExponent Format.binary64 m e .exact =
      (exactly m >>> (lastUnit m e - e).toNat, e + (lastUnit m e - e).toNat) := rfl

/-- A signed magnitude of `n` units with at most 53 bits. -/
def HasMagnitude (f : UnpackedFloat) (s : Sign) (n : Nat) : Prop :=
  (f = .zero s ∧ n = 0) ∨
    ∃ m e pos, f = .finite s m e pos ∧ Normalized m e ∧ size m e = n

/-- A mantissa and exponent of at most 53 bits stay as they are. -/
theorem lastUnit_le {m : Nat} {e : Int} (bits : m < 2 ^ 53) (low : -1074 ≤ e) :
    lastUnit m e ≤ e := by
  have log : m.log2 ≤ 52 := by
    by_cases zero : m = 0
    · simp [zero]
    · exact Nat.lt_succ_iff.mp ((Nat.log2_lt zero).mpr bits)
  rw [lastUnit_eq]
  omega

/-- Rounding up may leave a mantissa with one bit too many, which is then an even one. -/
theorem shiftToTargetExponent_carry {q : Nat} {e : Int} (bits : q ≤ 2 ^ 53) (low : -1074 ≤ e) :
    ∃ m e', shiftToTargetExponent Format.binary64 q e .exact = (exactly m, e') ∧ m < 2 ^ 53 ∧
      e ≤ e' ∧ size m e' = size q e ∧ (2 ^ 52 ≤ q → 2 ^ 52 ≤ m) ∧ (q < 2 ^ 52 → e' = e) := by
  rcases Nat.lt_or_eq_of_le bits with fits | rfl
  · have stays : (lastUnit q e - e).toNat = 0 := by
      have := lastUnit_le fits low
      omega
    refine ⟨q, e, ?_, fits, le_refl e, rfl, id, fun _ => rfl⟩
    rw [shiftToTargetExponent_eq, stays]
    simp [HShiftRight.hShiftRight, Nat.repeat]
  · have up : (lastUnit (2 ^ 53) e - e).toNat = 1 := by
      rw [lastUnit_eq, Nat.log2_two_pow]
      omega
    refine ⟨2 ^ 52, e + 1, ?_, by decide, by omega, ?_, fun _ => Nat.le_refl _, fun h => ?_⟩
    · rw [shiftToTargetExponent_eq, up]
      exact congrArg (·, e + 1) (exactly_shiftRight (2 ^ 52) 1)
    · exact (size_mul_two_pow (2 ^ 52) 1 (by omega)).symm
    · exact absurd h (by decide)

theorem roundWithAccuracy_cases {s : Sign} {m : Nat} {e : Int} {a : Accuracy}
    {em₁ em₂ : ExtendedMantissa} {e₁ e₂ : Int}
    (first : shiftToTargetExponent Format.binary64 m e a = (em₁, e₁))
    (second : shiftToTargetExponent Format.binary64 em₁.roundedMantissa e₁ .exact = (em₂, e₂)) :
    (em₂.mantissa = 0 ∧ roundWithAccuracy Format.binary64 s m e a = .zero s) ∨
      ∃ pos, roundWithAccuracy Format.binary64 s m e a = .finite s em₂.mantissa e₂ pos := by
  by_cases zero : em₂.mantissa = 0
  · exact Or.inl ⟨zero, by simp [roundWithAccuracy, first, second, zero]⟩
  · exact Or.inr ⟨Nat.pos_of_ne_zero zero, by simp [roundWithAccuracy, first, second, zero]⟩

theorem roundWithAccuracy_hasMagnitude {s : Sign} {m : Nat} {e : Int} (pos : 0 < m)
    (low : -2148 ≤ e) (high : e ≤ lastUnit m e) :
    HasMagnitude (roundWithAccuracy Format.binary64 s m e .exact) s (rounded (size m e)) := by
  have least : -1074 ≤ lastUnit m e := by
    rw [lastUnit_eq]
    omega
  have dropped : e + (lastUnit m e - e).toNat = lastUnit m e := by omega
  have drop := surplus_size pos low high
  have kept : quotient (size m e) (surplus (size m e)) = quotient m (lastUnit m e - e).toNat := by
    rw [drop, size, quotient_mul_two_pow]
  have value : rounded (size m e) = size (quotient m (lastUnit m e - e).toNat) (lastUnit m e) := by
    have exponent : (lastUnit m e + 2148).toNat = surplus (size m e) := by omega
    rw [rounded, kept, ← exponent, size.eq_def (quotient _ _)]
  have bits : quotient m (lastUnit m e - e).toNat ≤ 2 ^ 53 := kept ▸ quotient_le_two_pow _
  have full : -1074 < lastUnit m e → 2 ^ 52 ≤ quotient m (lastUnit m e - e).toNat := by
    intro above
    rw [← kept]
    exact two_pow_le_quotient (by omega)
  obtain ⟨m', e', carried, fits, up, same, normal, stays⟩ := shiftToTargetExponent_carry bits least
  have first : shiftToTargetExponent Format.binary64 m e .exact =
      (exactly m >>> (lastUnit m e - e).toNat, lastUnit m e) := by
    rw [shiftToTargetExponent_eq, dropped]
  have second : shiftToTargetExponent Format.binary64
      (exactly m >>> (lastUnit m e - e).toNat).roundedMantissa (lastUnit m e) .exact =
      (exactly m', e') := carried
  rw [value, ← same]
  rcases roundWithAccuracy_cases first second with ⟨zero, result⟩ | ⟨nonzero, result⟩
  · have none : m' = 0 := zero
    exact Or.inl ⟨result, by rw [none, size_zero]⟩
  · refine Or.inr ⟨m', e', nonzero, result, ⟨fits, by omega, ?_⟩, rfl⟩
    by_cases above : -1074 < lastUnit m e
    · exact Or.inr (normal (full above))
    · by_cases short : quotient m (lastUnit m e - e).toNat < 2 ^ 52
      · exact Or.inl (by rw [stays short]; omega)
      · exact Or.inr (normal (Nat.le_of_not_lt short))

/-! ### Storing the result -/

/-- The level that an exact level is rounded to. -/
def nearest (n : Int) : Int := n.sign * (min (rounded n.natAbs) limit : Nat)

theorem nearest_zero : nearest 0 = 0 := by
  rw [nearest, Int.sign_zero, Int.zero_mul]

theorem nearest_neg (n : Int) : nearest (-n) = -nearest n := by
  rw [nearest, nearest, Int.sign_neg, Int.natAbs_neg, Int.neg_mul]

theorem nearest_natCast (n : Nat) : nearest n = (min (rounded n) limit : Nat) := by
  rcases Nat.eq_zero_or_pos n with rfl | pos
  · rw [Nat.cast_zero, nearest_zero, rounded_zero, Nat.zero_min, Nat.cast_zero]
  · rw [nearest, Int.sign_natCast_of_ne_zero (Nat.ne_of_gt pos), Int.natAbs_natCast, Int.one_mul]

theorem nearest_apply (s : Sign) (n : Nat) :
    nearest (s.apply n) = s.apply (min (rounded n) limit : Nat) := by
  cases s with
  | negative => rw [Sign.apply, nearest_neg, nearest_natCast, Sign.apply]
  | positive => exact nearest_natCast n

theorem nearest_mono {n n' : Int} (order : n ≤ n') : nearest n ≤ nearest n' := by
  have grows {a b : Nat} (below : a ≤ b) : nearest a ≤ nearest b := by
    have := rounded_mono below
    rw [nearest_natCast, nearest_natCast]
    omega
  have nonneg (a : Nat) : 0 ≤ nearest a := by
    rw [nearest_natCast]
    omega
  obtain ⟨a, rfl | rfl⟩ := n.eq_nat_or_neg <;> obtain ⟨b, rfl | rfl⟩ := n'.eq_nat_or_neg
  · exact grows (by omega)
  · obtain ⟨rfl, rfl⟩ : a = 0 ∧ b = 0 := by omega
    simp [nearest_zero]
  · rw [nearest_neg]
    have := nonneg a
    have := nonneg b
    omega
  · rw [nearest_neg, nearest_neg]
    exact Int.neg_le_neg (grows (by omega))

/-- What is stored when a result with this magnitude is. -/
theorem unpack_pack_hasMagnitude {f : UnpackedFloat} {s : Sign} {n : Nat}
    (magnitude : HasMagnitude f s n) :
    ∃ g, UnpackedFloat.unpack Format.binary64 (UnpackedFloat.pack Format.binary64 f) = g ∧
      g ≠ .notANumber ∧ level g = s.apply (min n limit : Nat) := by
  rcases magnitude with ⟨rfl, rfl⟩ | ⟨m, e, pos, rfl, shape, rfl⟩
  · refine ⟨.zero s, unpack_packedZero, by simp, ?_⟩
    cases s <;> simp [level, Sign.apply]
  · by_cases top : e ≤ 971
    · refine ⟨.finite s m e pos, unpack_pack ⟨shape, top⟩, by simp, ?_⟩
      rw [Nat.min_eq_left (size_lt_limit shape top).le, level]
    · refine ⟨.infinity s, unpack_pack_overflow pos (by omega), by simp, ?_⟩
      rw [Nat.min_eq_right (limit_le_size shape (by omega)), level]

theorem round_hasMagnitude {s : Sign} {m : Nat} {e : Int} (pos : 0 < m) (low : -2148 ≤ e) :
    HasMagnitude (UnpackedFloat.round Format.binary64 s m e) s (rounded (size m e)) := by
  have least : -1074 ≤ lastUnit m e := by
    rw [lastUnit_eq]
    omega
  have widened : m <<< (e - lastUnit m e).toNat = m * 2 ^ (e - lastUnit m e).toNat :=
    Nat.shiftLeft_eq _ _
  have pos' := Nat.mul_pos pos (Nat.two_pow_pos (e - lastUnit m e).toNat)
  have same : lastUnit (m * 2 ^ (e - lastUnit m e).toNat) (e - (e - lastUnit m e).toNat) =
      lastUnit m e := by
    rw [lastUnit_eq, lastUnit_eq m e, log2_mul_two_pow pos]
    omega
  have value :
      size (m * 2 ^ (e - lastUnit m e).toNat) (e - (e - lastUnit m e).toNat) = size m e := by
    rw [size_mul_two_pow _ _ (by omega)]
    congr 1
    omega
  have result := roundWithAccuracy_hasMagnitude (s := s) pos' (by omega) (by omega :
    e - (e - lastUnit m e).toNat ≤
      lastUnit (m * 2 ^ (e - lastUnit m e).toNat) (e - (e - lastUnit m e).toNat))
  rw [value, ← widened] at result
  exact result

theorem exists_apply (m : Int) : ∃ (s : Sign) (n : Nat), m = s.apply n := by
  obtain ⟨n, positive | negative⟩ := m.eq_nat_or_neg
  · exact ⟨.positive, n, positive⟩
  · exact ⟨.negative, n, negative⟩

theorem normalize_apply (s : Sign) {n : Nat} (pos : 0 < n) (e : Int) :
    UnpackedFloat.normalize Format.binary64 (s.apply n) e .positive =
      UnpackedFloat.round Format.binary64 s n e := by
  cases s with
  | negative =>
    have below : Sign.negative.apply (n : Int) < 0 := by simp [Sign.apply, pos]
    rw [UnpackedFloat.normalize, compare_lt_iff_lt.mpr below]
    simp [Sign.apply]
  | positive =>
    have above : Sign.positive.apply (n : Int) > 0 := by simp [Sign.apply, pos]
    rw [UnpackedFloat.normalize, compare_gt_iff_gt.mpr above]
    simp [Sign.apply]

theorem unpack_pack_normalize (m : Int) {e : Int} (low : -2148 ≤ e) :
    ∃ g, UnpackedFloat.unpack Format.binary64 (UnpackedFloat.pack Format.binary64
        (UnpackedFloat.normalize Format.binary64 m e .positive)) = g ∧
      g ≠ .notANumber ∧ level g = nearest (m * 2 ^ (e + 2148).toNat) := by
  obtain ⟨s, n, rfl⟩ := exists_apply m
  have exact : s.apply n * 2 ^ (e + 2148).toNat = s.apply (size n e) := by
    cases s <;> simp [Sign.apply, size]
  rw [exact, nearest_apply]
  rcases Nat.eq_zero_or_pos n with rfl | pos
  · have zero : s.apply (0 : Nat) = 0 := by cases s <;> rfl
    refine ⟨.zero .positive, ?_, by simp, ?_⟩
    · rw [zero, UnpackedFloat.normalize, compare_eq_iff_eq.mpr rfl]
      exact unpack_packedZero
    · rw [size_zero, rounded_zero, Nat.zero_min, zero]
      rfl
  · rw [normalize_apply s pos]
    exact unpack_pack_hasMagnitude (round_hasMagnitude pos low)

/-- A magnitude with at most 53 bits is its own rounding. -/
theorem rounded_size {m : Nat} {e : Int} (shape : Normalized m e) (pos : 0 < m) :
    rounded (size m e) = size m e := by
  obtain ⟨bits, low, normal⟩ := shape
  have log : m.log2 ≤ 52 := Nat.lt_succ_iff.mp ((Nat.log2_lt (Nat.ne_of_gt pos)).mpr bits)
  have unit : surplus (size m e) = (e + 2148).toNat := by
    rw [surplus, size, log2_mul_two_pow pos]
    rcases normal with rfl | full
    · omega
    · have : 52 ≤ m.log2 := (Nat.le_log2 (Nat.ne_of_gt pos)).mpr full
      omega
  rw [rounded, unit, size, quotient_self]

theorem rounded_limit : rounded limit = limit := by
  rw [limit_eq_size (e := 972) (k := 52) (by decide) (by decide)]
  exact rounded_size ⟨by decide, by decide, Or.inr (by decide)⟩ (by decide)

/-- Levels are not changed by rounding. -/
theorem nearest_level {f : UnpackedFloat} (shape : Canonical f) : nearest (level f) = level f := by
  cases f with
  | notANumber => exact nearest_zero
  | zero s => exact nearest_zero
  | infinity s => rw [level, nearest_apply, rounded_limit, Nat.min_self]
  | finite s m e pos =>
    rw [level, nearest_apply, rounded_size shape.1 pos,
      Nat.min_eq_left (size_lt_limit shape.1 shape.2).le]

end Binary64

end TropicalAlgebra
