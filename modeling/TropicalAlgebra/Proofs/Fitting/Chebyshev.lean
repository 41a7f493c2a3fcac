import TropicalAlgebra.Proofs.Fitting.Readings
import TropicalAlgebra.Proofs.Matrix.Distance

/-!
# Best fits

Over an exact dioid the closed form of a fit is a best one: its largest deviation from the samples
is half of the gap, and no polynomial with the same exponents does better.
-/

namespace TropicalAlgebra

open ExtendedRational

namespace Samples

variable {d : Dioid ExtendedRational} {χ : d.Chart} {m : Nat} {range : ExponentRange}

/-- The samples with given rational points and values. -/
def ofFn (points values : Fin m → Rat) : Samples ExtendedRational :=
  ⟨List.ofFn fun i => rational (points i), List.ofFn fun i => rational (values i)⟩

theorem row_ne_zero (order : range.left ≤ range.right) (points : Fin m → Rat) (i : Fin m) :
    ∃ j, powerHeights χ range points i j ≠ 0 :=
  ⟨⟨0, ExponentRange.length_pos order⟩, Height.exp_ne_zero _⟩

/-- What a fit computes, in heights. -/
private theorem fitPolynomial_reads (χ : d.Chart) (order : range.left ≤ range.right)
    (denominator : range.d ≠ 0) (pos : 0 < m) (points values : Fin m → Rat) :
    ∃ fit theta s, (ofFn points values).fitPolynomial d range = .ok fit ∧
      Polynomial.ofColumn theta range = .ok fit.polynomial ∧
      theta.ReadsColumn χ (fun j =>
        Height.greatest (powerHeights χ range points) (χ.heights values) j * s) ∧
      fit.gap ∈ d ∧
      χ.value fit.gap = Height.gap (powerHeights χ range points) (χ.heights values) ∧
      s * s = χ.value fit.gap := by
  obtain ⟨X, powers, readX⟩ := reads_ofPowers (χ := χ) order denominator pos points
  have columned : Matrix.columnVector (ofFn points values).values = .ok (.ofRationals pos values) :=
    Matrix.columnVector_ofFn pos _
  have readY := Matrix.readsColumn_ofRationals (χ := χ) pos values
  obtain ⟨g, greatestOk, readG⟩ := readX.subsolution readY
  obtain ⟨reached, reachedOk, readR⟩ := readX.mulColumn readG
  obtain ⟨gap, gapOk, readGap⟩ := readR.pseudoInverse.mul readY
  obtain ⟨theta, s, centredOk, readθ, root⟩ := readG.centred readGap.corner_mem
  obtain ⟨P, built⟩ := Polynomial.exists_ofColumn_eq_ok order denominator readθ
  refine ⟨⟨P, gap.corner⟩, theta, s, ?_, built, readθ, readGap.corner_mem, readGap.value_corner,
    root⟩
  -- the steps of the program, in its order
  refine require_bind_eq_ok_iff.mpr ⟨by simp [ofFn], ?_⟩
  refine bind_eq_ok_iff.mpr ⟨X, powers, bind_eq_ok_iff.mpr ⟨_, columned, ?_⟩⟩
  refine (Matrix.validate_bind_eq_ok_iff d).mpr ⟨readY.mem_of_mem_toList, ?_⟩
  simp [greatestOk, reachedOk, gapOk, centredOk, built, bind, Except.bind, pure, Except.pure]

section Values

variable {column : Matrix ExtendedRational} {P : Polynomial ExtendedRational}
  {θ : Fin range.length → Height}

private theorem image_eq_heights (read : column.ReadsColumn χ θ)
    (built : Polynomial.ofColumn column range = .ok P) {points w : Fin m → Rat}
    (taken : ∀ i, P.value d (rational (points i)) = .ok (rational (w i))) :
    Height.image (powerHeights χ range points) θ = χ.heights w := by
  funext i
  obtain ⟨v, returned, -, value⟩ := Polynomial.value_ofColumn read built points i
  obtain rfl := Except.ok.inj ((taken i).symm.trans returned)
  exact value.symm.trans (χ.value_rational (w i))

private theorem exists_values (read : column.ReadsColumn χ θ)
    (built : Polynomial.ofColumn column range = .ok P) (points : Fin m → Rat)
    (nonzero : ∀ i, Height.image (powerHeights χ range points) θ i ≠ 0) :
    ∃ u : Fin m → Rat, ∀ i, P.value d (rational (points i)) = .ok (rational (u i)) := by
  obtain ⟨u, returned, -⟩ :=
    χ.exists_heights_eq (Polynomial.value_ofColumn read built points) nonzero
  exact ⟨u, returned⟩

end Values

theorem eq_ofFn {points values : List Rat} (same : points.length = values.length) :
    (⟨points.map rational, values.map rational⟩ : Samples ExtendedRational) =
      ofFn points.get fun i => values.get (i.cast same) := by
  unfold ofFn
  congr 1
  · apply List.ext_getElem <;> simp
  · apply List.ext_getElem
    · simp [same]
    · intro i hi hi'
      simp

/-- The polynomial that is fitted to rational samples deviates from them by half of the gap, and
every polynomial with the same exponents deviates at least as much somewhere. -/
theorem fitPolynomial_best (exact : d.IsExact) {points values : List Rat} (given : points ≠ [])
    (same : points.length = values.length) (order : range.left ≤ range.right)
    (denominator : range.d ≠ 0) :
    ∃ fit δ, fitPolynomial d ⟨points.map rational, values.map rational⟩ range = .ok fit ∧
      fit.gap = rational δ ∧
      (∃ column, (∀ a ∈ column.toList, a ∈ d) ∧
        Polynomial.ofColumn column range = .ok fit.polynomial) ∧
      (∃ u : Fin points.length → Rat,
        (∀ i, fit.polynomial.value d (rational (points.get i)) = .ok (rational (u i))) ∧
        IsGreatest (Set.range fun i => |u i - values.get (i.cast same)|) (|δ| / 2)) ∧
      ∀ column P, (∀ a ∈ column.toList, a ∈ d) → Polynomial.ofColumn column range = .ok P →
        ∀ w : Fin points.length → Rat,
          (∀ i, P.value d (rational (points.get i)) = .ok (rational (w i))) →
          ∃ i, |δ| / 2 ≤ |w i - values.get (i.cast same)| := by
  obtain ⟨χ⟩ := Dioid.Chart.nonempty exact
  have pos : 0 < points.length := List.length_pos_iff.mpr given
  rw [eq_ofFn same]
  obtain ⟨fit, theta, s, fitted, built, readθ, member, value, root⟩ := fitPolynomial_reads χ order
    denominator pos points.get fun i => values.get (i.cast same)
  have balanced := Height.balanced_image_centred pos (χ.heights_ne_zero _)
    (row_ne_zero order points.get) (root.trans value)
  -- no sample is given the value zero, so the deviations are rational numbers
  obtain ⟨u, taken⟩ := exists_values readθ built points.get balanced.right_ne_zero
  have one_le := balanced.one_le
  rw [image_eq_heights readθ built taken, ← value] at balanced
  obtain ⟨δ, gap, greatest⟩ := χ.isGreatest_of_balanced member balanced.symm
  refine ⟨fit, δ, fitted, gap, ⟨theta, readθ.mem_of_mem_toList, built⟩, ⟨u, taken, greatest⟩, ?_⟩
  -- another column is one more candidate for the residuation
  intro column P elements built' w taken'
  obtain ⟨-, shape, -⟩ := Polynomial.ofColumn_eq_ok_iff.mp built'
  obtain ⟨θ', readθ'⟩ := Matrix.exists_readsColumn χ elements shape
  rw [gap, χ.value_rational] at value
  exact χ.exists_distance_ge pos (image_eq_heights readθ' built' taken') one_le value.symm

-- a convex polynomial cannot follow a tent
theorem fitPolynomial_best_tent :
    ∃ fit δ, fitPolynomial .maxPlus ⟨[0, 1, 2].map rational, [0, 1, 0].map rational⟩ ⟨0, 1, 1⟩ =
        .ok fit ∧ fit.gap = rational δ ∧
      (∃ u : Fin 3 → Rat,
        (∀ i, fit.polynomial.value .maxPlus (rational ([0, 1, 2].get i)) = .ok (rational (u i))) ∧
        IsGreatest (Set.range fun i => |u i - [0, 1, 0].get i|) (|δ| / 2)) ∧
      ∀ column P, (∀ a ∈ column.toList, a ∈ (Dioid.maxPlus : Dioid ExtendedRational)) →
        Polynomial.ofColumn column ⟨0, 1, 1⟩ = .ok P → ∀ w : Fin 3 → Rat,
          (∀ i, P.value .maxPlus (rational ([0, 1, 2].get i)) = .ok (rational (w i))) →
          ∃ i, |δ| / 2 ≤ |w i - [0, 1, 0].get i| := by
  obtain ⟨fit, δ, fitted, gap, -, deviation, optimal⟩ :=
    @fitPolynomial_best .maxPlus ⟨0, 1, 1⟩ .maxPlus [0, 1, 2] [0, 1, 0] (List.cons_ne_nil _ _) rfl
      (by decide) Nat.one_ne_zero
  exact ⟨fit, δ, fitted, gap, deviation, optimal⟩

end Samples

end TropicalAlgebra
