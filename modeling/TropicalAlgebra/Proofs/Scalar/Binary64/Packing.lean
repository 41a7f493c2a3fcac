import TropicalAlgebra.Proofs.Scalar.Binary64.Levels

/-!
# Stored numbers

Every bit pattern stores a number in canonical form, and a number in canonical form comes back from
its bit pattern unchanged. A finite number that is too large is stored as an infinity.
-/

namespace TropicalAlgebra

namespace Binary64

open Float.Model Float.Model.UnpackedFloat

/-- The bits of the mantissa that are stored, without the leading one of a normal number. -/
private theorem implicit_bit (v : BitVec 52) : (1#1 ++ v).toNat = 2 ^ 52 + v.toNat := by
  have sum := Nat.two_pow_add_eq_or_of_lt v.isLt 1
  rw [BitVec.toNat_append, BitVec.toNat_ofNat]
  simpa using sum.symm

private theorem bias_eq :
    (Format.binary64.exponentBias + Format.binary64.mantissaBitsWithoutImplicit : Int) = 1075 := rfl

theorem canonical_unpack (b : BitVec Format.binary64.numBits) :
    Canonical (UnpackedFloat.unpack Format.binary64 b) := by
  have bits : (unpackMantissa b).toNat < 2 ^ 52 := (unpackMantissa b).isLt
  have range : (unpackExponent b).toNat < 2 ^ 11 := (unpackExponent b).isLt
  fun_cases UnpackedFloat.unpack with
  | case1 => trivial
  | case2 => trivial
  | case3 => trivial
  | case4 mantissa exponent unbiased _ _ _ least =>
    -- a subnormal number
    have zero : exponent.toNat = 0 := congrArg BitVec.toNat least
    have lowest : unbiased + 1 = -1074 := by
      change (exponent.toNat : Int) - _ + 1 = _
      rw [zero, bias_eq]
      rfl
    refine ⟨⟨?_, by omega, Or.inl lowest⟩, by omega⟩
    exact Nat.lt_trans bits (by decide)
  | case5 mantissa exponent unbiased _ _ notTop notLeast =>
    have value : unbiased = exponent.toNat - 1075 := rfl
    have notZero : exponent.toNat ≠ 0 := fun zero => notLeast (BitVec.eq_of_toNat_eq zero)
    have notMax : exponent.toNat ≠ 2047 := fun top => notTop (BitVec.eq_of_toNat_eq top)
    have range' : exponent.toNat < 2 ^ 11 := range
    have full := implicit_bit mantissa
    have bits' : mantissa.toNat < 2 ^ 52 := bits
    exact ⟨⟨by omega, by omega, Or.inr (by omega)⟩, by omega⟩

private theorem biased_eq (e : Int) :
    (e + Format.binary64.exponentBias + Format.binary64.mantissaBitsWithoutImplicit).toNat =
      (e + 1075).toNat :=
  congrArg Int.toNat (Int.add_assoc e _ _)

/-- A finite number that is too large is stored as an infinity. -/
theorem unpack_pack_overflow {s : Sign} {m : Nat} {e : Int} (pos : 0 < m) (top : 971 < e) :
    UnpackedFloat.unpack Format.binary64 (UnpackedFloat.pack Format.binary64 (.finite s m e pos)) =
      .infinity s := by
  have overflow : 2 ^ 11 ≤ (e + 1075).toNat + 1 := by omega
  rw [UnpackedFloat.pack, biased_eq, if_pos overflow]
  cases s <;> rfl

private theorem unpack_pack_normal {s : Sign} {m : Nat} {e : Int} (pos : 0 < m)
    (shape : Normalized m e) (top : e ≤ 971) (normal : 2 ^ 52 ≤ m) :
    UnpackedFloat.unpack Format.binary64 (UnpackedFloat.pack Format.binary64 (.finite s m e pos)) =
      .finite s m e pos := by
  obtain ⟨bits, low, -⟩ := shape
  have log : m.log2 = 52 := (Nat.log2_eq_iff (by omega)).mpr ⟨normal, bits⟩
  have exponent : (BitVec.ofNat 11 (e + 1075).toNat).toNat = (e + 1075).toNat := by
    rw [BitVec.toNat_ofNat]
    omega
  have notTop : BitVec.ofNat 11 (e + 1075).toNat ≠ -1#11 := by
    intro top
    have := congrArg BitVec.toNat top
    rw [exponent] at this
    have : (e + 1075).toNat = 2047 := this
    omega
  have notLeast : BitVec.ofNat 11 (e + 1075).toNat ≠ 0#11 := by
    intro least
    have := congrArg BitVec.toNat least
    rw [exponent] at this
    have : (e + 1075).toNat = 0 := this
    omega
  have mantissa : (1#1 ++ BitVec.ofNat 52 m).toNat = m := by
    rw [implicit_bit, BitVec.toNat_ofNat]
    omega
  have fits : ¬ 2 ^ 11 ≤ (e + 1075).toNat + 1 := by omega
  rw [UnpackedFloat.pack, biased_eq, if_neg fits, if_pos (by rw [log]; rfl), UnpackedFloat.unpack]
  simp only [unpackMantissa_packComponents, unpackExponent_packComponents,
    unpackSign_packComponents, Sign.ofBitVec_toBitVec]
  rw [if_neg notTop, if_neg notLeast, UnpackedFloat.finite.injEq]
  refine ⟨rfl, mantissa, ?_⟩
  rw [exponent, bias_eq]
  omega

private theorem unpack_pack_subnormal {s : Sign} {m : Nat} (pos : 0 < m) (bits : m < 2 ^ 52) :
    UnpackedFloat.unpack Format.binary64
        (UnpackedFloat.pack Format.binary64 (.finite s m (-1074) pos)) =
      .finite s m (-1074) pos := by
  have log : m.log2 < 52 := (Nat.log2_lt (by omega)).mpr bits
  have short : m.log2 + 1 ≠ Format.binary64.mantissaBits := by
    intro full
    have : m.log2 + 1 = 53 := full
    omega
  have mantissa : (BitVec.ofNat 52 m).toNat = m := by
    rw [BitVec.toNat_ofNat]
    omega
  have nonzero : BitVec.ofNat 52 m ≠ 0#52 := by
    intro zero
    have := congrArg BitVec.toNat zero
    rw [mantissa] at this
    have : m = 0 := this
    omega
  rw [UnpackedFloat.pack, biased_eq, if_neg (by decide), if_neg short, UnpackedFloat.unpack]
  simp only [unpackMantissa_packComponents, unpackExponent_packComponents,
    unpackSign_packComponents, Sign.ofBitVec_toBitVec]
  rw [if_neg (by decide), if_pos trivial, dif_neg nonzero, UnpackedFloat.finite.injEq]
  exact ⟨rfl, mantissa, rfl⟩

/-- Numbers in canonical form survive being stored. -/
theorem unpack_pack {f : UnpackedFloat} (shape : Canonical f) :
    UnpackedFloat.unpack Format.binary64 (UnpackedFloat.pack Format.binary64 f) = f := by
  cases f with
  | notANumber => exact unpack_packedNaN
  | infinity s => cases s <;> rfl
  | zero s => exact unpack_packedZero
  | finite s m e pos =>
    obtain ⟨normalized, top⟩ := shape
    by_cases normal : 2 ^ 52 ≤ m
    · exact unpack_pack_normal pos normalized top normal
    · obtain rfl : e = -1074 := by
        have := normalized.2.2
        omega
      exact unpack_pack_subnormal pos (by omega)

end Binary64

end TropicalAlgebra
