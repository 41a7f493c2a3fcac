import TropicalAlgebra.Proofs.Closure.CycleMean

/-!
# Normalized matrices

Over an exact dioid the spectral radius is homogeneous: a scalar multiplies the mean weight of every
closed walk. A matrix that is divided by its own spectral radius has the radius one; its best closed
walk weighs one, and therefore its closure exists.
-/

namespace TropicalAlgebra

open ExtendedRational

namespace Matrix

variable {d : Dioid ExtendedRational} {χ : d.Chart} {n : Nat} {F : WeightMatrix n Height}

/-- If the best mean is one, then some short closed walk weighs one and none weighs more. -/
theorem cycleSum_eq_one {ρ : Nat → Height} (means : F.Means ρ)
    (best : WeightMatrix.bestMean n ρ = 1) : cycleSum F = 1 := by
  have noGain : F.NoGain := by
    by_contra gains
    exact (means.one_lt_bestMean_iff.mpr gains).ne' best
  apply le_antisymm (noGain_iff_cycleSum_le.mp noGain)
  obtain ⟨k, less, i, attained⟩ := means.exists_pow_diagonal_eq (best ▸ one_ne_zero)
  calc (1 : Height)
      = (F ^ (k + 1)) i i := by rw [attained, best, one_pow]
    _ ≤ ∑ i, (F ^ (k + 1)) i i :=
        WeightMatrix.le_sum (fun i => (F ^ (k + 1)) i i) (Finset.mem_univ i)
    _ ≤ cycleSum F :=
        WeightMatrix.le_sum (fun k => ∑ i, (F ^ (k + 1)) i i) (Finset.mem_range.mpr less)

namespace Reads

variable {M : Matrix ExtendedRational}

theorem scale_smul (read : M.Reads χ.toValuation F) {a : ExtendedRational} (member : a ∈ d) :
    ∃ N, M.scale d a = .ok N ∧ N.Reads χ.toValuation (χ.value a • F) := by
  obtain ⟨N, scaled, readN⟩ := read.scale member
  refine ⟨N, scaled, ?_⟩
  have same : (fun i j => F i j * χ.value a) = χ.value a • F := by
    funext i j
    exact mul_comm _ _
  rwa [same] at readN

/-- A scalar multiplies the spectral radius. -/
theorem spectralRadius_scale (read : M.Reads χ.toValuation F) {a : ExtendedRational}
    (member : a ∈ d) :
    ∃ radius N, M.spectralRadius d = .ok radius ∧ M.scale d a = .ok N ∧
      N.Reads χ.toValuation (χ.value a • F) ∧ N.spectralRadius d = .ok (d.mul a radius) := by
  obtain ⟨radius, ρ, computed, inside, means, value⟩ := reads_spectralRadius read
  obtain ⟨N, scaled, readN⟩ := read.scale_smul member
  obtain ⟨radiusN, σ, computedN, insideN, meansN, valueN⟩ := reads_spectralRadius readN
  refine ⟨radius, N, computed, scaled, readN, computedN.trans (congrArg _ ?_)⟩
  rw [← χ.value_eq_iff insideN (χ.mul_mem member inside), χ.value_mul member inside, value, valueN]
  exact means.bestMean_smul meansN

/-- A matrix with the spectral radius one has a closure. -/
theorem star_of_spectralRadius_eq_one (read : M.Reads χ.toValuation F)
    (unit : M.spectralRadius d = .ok d.one) :
    M.traceSum d = .ok d.one ∧ ∃ S, M.star d = .ok S := by
  obtain ⟨radius, ρ, computed, -, means, value⟩ := reads_spectralRadius read
  obtain ⟨trace, summed, member, traceValue⟩ := reads_traceSum read
  obtain rfl : radius = d.one := Except.ok.inj (computed.symm.trans unit)
  have cycles := cycleSum_eq_one means (value.symm.trans χ.value_one)
  obtain rfl : trace = d.one := by
    rw [← χ.value_eq_iff member χ.one_mem, traceValue, cycles, χ.value_one]
  obtain ⟨S, closed, -⟩ :=
    exists_star Height.add_selects read (noGain_iff_cycleSum_le.mpr cycles.le)
  exact ⟨summed, S, closed⟩

end Reads

/-- Divided by its spectral radius, a matrix has the radius and the power trace one, and a
closure. -/
theorem normalize_spectralRadius {d : Dioid ExtendedRational} (exact : d.IsExact)
    (M : Matrix ExtendedRational) (square : M.rows = M.cols) (elements : ∀ a ∈ M.toList, a ∈ d) :
    ∃ radius, M.spectralRadius d = .ok radius ∧
      (radius ≠ d.zero → ∃ N, M.scale d (d.inv radius) = .ok N ∧
        N.spectralRadius d = .ok d.one ∧ N.traceSum d = .ok d.one ∧ ∃ S, N.star d = .ok S) := by
  obtain ⟨χ⟩ := Dioid.Chart.nonempty exact
  obtain ⟨F, read⟩ : ∃ F : WeightMatrix M.rows Height, M.Reads χ.toValuation F :=
    exists_reads χ.toValuation elements rfl square.symm
  obtain ⟨radius, -, computed, inside, -, -⟩ := reads_spectralRadius read
  refine ⟨radius, computed, fun nonzero => ?_⟩
  obtain ⟨member, inverse⟩ := χ.value_inv inside
  obtain ⟨radius', N, computed', scaled, readN, computedN⟩ := read.spectralRadius_scale member
  obtain rfl : radius = radius' := Except.ok.inj (computed.symm.trans computed')
  have cancels : d.mul (d.inv radius) radius = d.one := by
    rw [← χ.value_eq_iff (χ.mul_mem member inside) χ.one_mem, χ.value_mul member inside, inverse,
      χ.value_one]
    exact inv_mul_cancel₀ (mt (χ.value_eq_zero_iff inside).mp nonzero)
  rw [cancels] at computedN
  exact ⟨N, scaled, computedN, readN.star_of_spectralRadius_eq_one computedN⟩

theorem normalize_spectralRadius_shuttle :
    shuttle.spectralRadius .maxPlus = .ok (rational 3) ∧
    ∃ N S, shuttle.scale .maxPlus (rational (-3)) = .ok N ∧
      N.spectralRadius .maxPlus = .ok (rational 0) ∧ N.traceSum .maxPlus = .ok (rational 0) ∧
      N.star .maxPlus = .ok S := by
  have three : shuttle.spectralRadius .maxPlus = .ok (rational 3) := by decide +kernel
  obtain ⟨radius, computed, normal⟩ := normalize_spectralRadius .maxPlus shuttle rfl (by decide)
  obtain rfl : radius = rational 3 := Except.ok.inj (computed.symm.trans three)
  obtain ⟨N, scaled, unit, trace, S, closed⟩ := normal nofun
  exact ⟨three, N, S, scaled, unit, trace, closed⟩

end Matrix

end TropicalAlgebra
