import TropicalAlgebra.Proofs.TwoSided.Balance

/-!
# The vector of a half-step is the best one

A half-step moves the greatest vector below the fixed side by half of the gap. Over an exact dioid
no vector comes closer to the fixed side in its largest deviation, whatever the sizes of the two
matrices are.
-/

namespace TropicalAlgebra

open ExtendedRational

namespace TwoSided

open TropicalAlgebra.Height (gap)

variable {d : Dioid ExtendedRational} {χ : d.Chart} {m p : Nat}

/-- Operands of a half-step in which no row of the second matrix and no entry of the fixed side is
zero. -/
structure Fittable (d : Dioid ExtendedRational) (lhs rhs x : Matrix ExtendedRational) : Prop
    extends Operands d lhs rhs x where
  row : ∀ i, ∃ j, rhs.cell i j ≠ d.zero
  target : ∀ b, lhs.mul d x = .ok b → ∀ a ∈ b.toList, a ≠ d.zero

/-- Any other vector leaves somewhere at least half of the gap. -/
theorem exists_deviation_ge {rhs u : Matrix ExtendedRational} {G : Fin m → Fin p → Height}
    {b : Fin m → Rat} {δ : Rat} (pos : 0 < m) (readR : rhs.Reads χ.toValuation G)
    (one_le : 1 ≤ gap G (χ.heights b)) (value : gap G (χ.heights b) = Height.exp (χ.sign * δ))
    (elements : ∀ a ∈ u.toList, a ∈ d) (shape : u.shape = ⟨p, 1⟩) :
    ∃ c, rhs.mul d u = .ok c ∧ ((∀ a ∈ c.toList, a ≠ d.zero) →
      ∃ e, c = .ofRationals pos e ∧ ∃ i, |δ| / 2 ≤ |e i - b i|) := by
  obtain ⟨w, readU⟩ := Matrix.exists_readsColumn χ elements shape
  obtain ⟨c, product, readC⟩ := readR.mulColumn readU
  refine ⟨c, product, fun zeroFree => ?_⟩
  obtain ⟨e, rfl, heights⟩ := readC.exists_eq_ofRationals pos (readC.ne_zero zeroFree)
  exact ⟨e, rfl, χ.exists_distance_ge pos heights one_le value⟩

/-- A half-step returns a vector of elements. Its product deviates from the fixed side by half of the
gap, and no vector whose product is free of zeros deviates less. -/
theorem halfStep_best (exact : d.IsExact) {lhs rhs x : Matrix ExtendedRational}
    (operands : Fittable d lhs rhs x) :
    ∃ next δ a b, halfStep d lhs rhs x = .ok ⟨next, rational δ⟩ ∧
      (∀ a ∈ next.toList, a ∈ d) ∧ next.shape = ⟨rhs.cols, 1⟩ ∧
      lhs.mul d x = .ok (.ofRationals lhs.rows_pos b) ∧
      rhs.mul d next = .ok (.ofRationals lhs.rows_pos a) ∧
      IsGreatest (Set.range fun i => |a i - b i|) (|δ| / 2) ∧
      ∀ u, (∀ a ∈ u.toList, a ∈ d) → u.shape = ⟨rhs.cols, 1⟩ →
        ∃ c, rhs.mul d u = .ok c ∧ ((∀ a ∈ c.toList, a ≠ d.zero) →
          ∃ e, c = .ofRationals lhs.rows_pos e ∧ ∃ i, |δ| / 2 ≤ |e i - b i|) := by
  obtain ⟨χ⟩ := Dioid.Chart.nonempty exact
  obtain ⟨F, G, v, readL, readR, readX⟩ := operands.exists_reads χ
  obtain ⟨fixed, product, readF⟩ := readL.mulColumn readX
  obtain ⟨⟨next, left⟩, s, computed, readNext, member, value, root⟩ :=
    halfStep_reads readL readR readX
  obtain ⟨reached, product', readReached⟩ := readR.mulColumn readNext
  -- in heights the product and the fixed side are balanced around the gap
  have target := readF.ne_zero (operands.target fixed product)
  have balanced := Height.balanced_image_centred lhs.rows_pos target
    (readR.row_ne_zero operands.row) root
  have one_le := balanced.one_le
  rw [← value] at balanced
  obtain ⟨a, b, δ, rfl, rfl, rfl, greatest⟩ :=
    readReached.isGreatest readF lhs.rows_pos member balanced.symm
  rw [readF.unique (Matrix.readsColumn_ofRationals lhs.rows_pos b)] at value one_le
  refine ⟨next, δ, a, b, computed, readNext.mem_of_mem_toList, ?_, product, product', greatest, ?_⟩
  · rw [Matrix.shape, readNext.rows, readNext.cols]
  · intro u elements shape
    rw [χ.value_rational] at value
    exact exists_deviation_ge lhs.rows_pos readR one_le value.symm elements shape

theorem fittable_slope_level : Fittable .maxPlus slope level origin where
  __ := zeroFree_slope_level
  row := zeroFree_slope_level.row_right
  target := zeroFree_slope_level.image

/-- A level line is fitted to one that rises by one; half of that is left, and no level line does
better. -/
theorem halfStep_best_slope_level :
    ∃ next δ a b, halfStep .maxPlus slope level origin = .ok ⟨next, rational δ⟩ ∧
      slope.mul .maxPlus origin = .ok (.ofRationals Nat.two_pos b) ∧
      level.mul .maxPlus next = .ok (.ofRationals Nat.two_pos a) ∧
      IsGreatest (Set.range fun i => |a i - b i|) (|δ| / 2) ∧
      ∀ u, (∀ a ∈ u.toList, a ∈ (Dioid.maxPlus : Dioid ExtendedRational)) →
        u.shape = ⟨level.cols, 1⟩ →
        ∃ c, level.mul .maxPlus u = .ok c ∧ ((∀ a ∈ c.toList, a ≠ Dioid.maxPlus.zero) →
          ∃ e, c = .ofRationals Nat.two_pos e ∧ ∃ i, |δ| / 2 ≤ |e i - b i|) := by
  obtain ⟨next, δ, a, b, computed, -, -, fixed, reached, greatest, optimal⟩ :=
    halfStep_best .maxPlus fittable_slope_level
  exact ⟨next, δ, a, b, computed, fixed, reached, greatest, optimal⟩

end TwoSided

end TropicalAlgebra
