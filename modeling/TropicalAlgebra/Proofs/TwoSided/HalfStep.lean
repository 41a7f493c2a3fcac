import TropicalAlgebra.Proofs.Matrix.Residuation
import TropicalAlgebra.TwoSided.Solver

/-!
# What a half-step computes

Over an exact dioid a half-step never fails. Its vector is the greatest one below the fixed side,
multiplied by the square root of the gap.
-/

namespace TropicalAlgebra

namespace TwoSided

open TropicalAlgebra.Height (image greatest)

variable {d : Dioid ExtendedRational} {χ : d.Chart} {m n p : Nat}

/-- The results of a half-step, as heights. -/
structure HalfStep.Reads (χ : d.Chart) (h : HalfStep ExtendedRational) (G : Fin m → Fin p → Height)
    (target : Fin m → Height) (s : Height) : Prop where
  vector : h.vector.ReadsColumn χ fun j => greatest G target j * s
  mem : h.gap ∈ d
  value : χ.value h.gap = Height.gap G target
  root : s * s = Height.gap G target

-- the program multiplies the three factors of the gap from the left
private theorem comparison_eq_gap (F : Fin m → Fin n → Height) (G : Fin m → Fin p → Height)
    (v : Fin n → Height) :
    ∑ c, (∑ i, (image G (greatest G (image F v)) i)⁻¹ * F i c) * v c =
      Height.gap G (image F v) := by
  simp only [Finset.sum_mul]
  rw [Finset.sum_comm]
  simp only [Height.gap, mul_assoc, ← Finset.mul_sum]
  rfl

theorem halfStep_reads {lhs rhs x : Matrix ExtendedRational} {F : Fin m → Fin n → Height}
    {G : Fin m → Fin p → Height} {v : Fin n → Height} (readL : lhs.Reads χ.toValuation F)
    (readR : rhs.Reads χ.toValuation G) (read : x.ReadsColumn χ v) :
    ∃ h s, halfStep d lhs rhs x = .ok h ∧ h.Reads χ G (image F v) s := by
  -- one reading for each line of the program
  obtain ⟨target, targetOk, readT⟩ := readL.mulColumn read
  obtain ⟨g, greatestOk, readG⟩ := readR.subsolution readT
  obtain ⟨reached, reachedOk, readH⟩ := readR.mulColumn readG
  obtain ⟨comparison, comparisonOk, readC⟩ := readH.pseudoInverse.mul readL
  obtain ⟨gap, gapOk, readGap⟩ := readC.mul read
  have value : χ.value gap.corner = Height.gap G (image F v) :=
    readGap.value_corner.trans (comparison_eq_gap F G v)
  obtain ⟨y, s, centredOk, readY, root⟩ := readG.centred readGap.corner_mem
  refine ⟨⟨y, gap.corner⟩, s, ?_, readY, readGap.corner_mem, value, root.trans value⟩
  simp [halfStep, targetOk, greatestOk, reachedOk, comparisonOk, gapOk, centredOk, bind,
    Except.bind, pure, Except.pure]

end TwoSided

end TropicalAlgebra
