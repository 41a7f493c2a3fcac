import TropicalAlgebra.Proofs.Fitting.Chebyshev
import TropicalAlgebra.Proofs.TwoSided.Balance

/-!
# Fitted quotients

Over an exact dioid a quotient of two polynomials can be fitted to every list of samples. Its largest
deviation from them is half of the gap, since the two sides of the equation that is solved are the
numerators and the multiples of the denominators by the sampled values.
-/

namespace TropicalAlgebra

open ExtendedRational

namespace Height

variable {m p : Nat}

theorem image_one_ne_zero {F : Fin m → Fin p → Height} {i : Fin m} (row : ∃ j, F i j ≠ 0) :
    image F (fun _ => 1) i ≠ 0 := by
  obtain ⟨j, entry⟩ := row
  rw [image, Ne, sum_eq_zero_iff]
  exact fun all => mul_ne_zero entry one_ne_zero (all j)

/-- What balances a product balances one of its factors, if the other one is divided out. -/
theorem Balanced.div {x y c : Fin m → Height} {γ : Height}
    (balanced : Balanced x (fun i => c i * y i) γ) :
    Balanced (fun i => x i * (y i)⁻¹) c γ := by
  obtain ⟨s, root, close, i, far⟩ := balanced.root
  have left (i : Fin m) : c i ≠ 0 := left_ne_zero_of_mul (balanced.right_ne_zero i)
  have right (i : Fin m) : y i ≠ 0 := right_ne_zero_of_mul (balanced.right_ne_zero i)
  have quotient (i : Fin m) (t : Height) : c i * y i * t * (y i)⁻¹ = c i * t := by
    rw [mul_right_comm (c i), mul_inv_cancel_right₀ (right i)]
  have near : Within s (fun i => x i * (y i)⁻¹) c := by
    intro i
    constructor
    · calc x i * (y i)⁻¹ ≤ c i * y i * s * (y i)⁻¹ := by gcongr ?_ * _; exact (close i).1
        _ = c i * s := quotient i s
    · calc c i = c i * y i * (y i)⁻¹ := (mul_inv_cancel_right₀ (right i) _).symm
        _ ≤ x i * s * (y i)⁻¹ := by gcongr ?_ * _; exact (close i).2
        _ = x i * (y i)⁻¹ * s := mul_right_comm _ _ _
  refine ⟨fun i => mul_ne_zero (balanced.left_ne_zero i) (inv_ne_zero (right i)), left,
    balanced.one_le, s, root, near, i, far.imp (fun attained => ?_) fun attained => ?_⟩
  · rw [attained, quotient]
  · rw [mul_right_comm, ← attained, mul_inv_cancel_right₀ (right i)]

end Height

variable {d : Dioid ExtendedRational} {χ : d.Chart} {m : Nat} {range : ExponentRange}

/-- The value of a fit at point `i` is the quotient of two images. -/
theorem RationalFit.value_ofColumns {theta sigma : Matrix ExtendedRational}
    {θ σ : Fin range.length → Height} {fit : RationalFit ExtendedRational}
    (readθ : theta.ReadsColumn χ θ) (readσ : sigma.ReadsColumn χ σ)
    (numerator : Polynomial.ofColumn theta range = .ok fit.numerator)
    (denominator : Polynomial.ofColumn sigma range = .ok fit.denominator) (points : Fin m → Rat)
    (i : Fin m) :
    ∃ v, fit.value d (rational (points i)) = .ok v ∧ v ∈ d ∧
      χ.value v = Height.image (powerHeights χ range points) θ i *
        (Height.image (powerHeights χ range points) σ i)⁻¹ := by
  obtain ⟨p, returned, memberP, valueP⟩ := Polynomial.value_ofColumn readθ numerator points i
  obtain ⟨q, returned', memberQ, valueQ⟩ := Polynomial.value_ofColumn readσ denominator points i
  obtain ⟨inverse, valueInv⟩ := χ.value_inv memberQ
  refine ⟨d.mul p (d.inv q), ?_, χ.mul_mem memberP inverse, ?_⟩
  · exact bind_eq_ok_iff.mpr ⟨p, returned, bind_eq_ok_iff.mpr ⟨q, returned', rfl⟩⟩
  · rw [χ.value_mul memberP inverse, valueInv, valueP, valueQ]

namespace Samples

/-- What a fit computes, in heights: the values multiply the rows of the right side. -/
theorem fitRational_reads (χ : d.Chart) (order : range.left ≤ range.right)
    (denominator : range.d ≠ 0) (pos : 0 < m) (points values : Fin m → Rat) :
    ∃ fit theta sigma θ σ, (ofFn points values).fitRational d range = .ok fit ∧
      Polynomial.ofColumn theta range = .ok fit.numerator ∧
      Polynomial.ofColumn sigma range = .ok fit.denominator ∧
      theta.ReadsColumn χ θ ∧ sigma.ReadsColumn χ σ ∧ fit.gap ∈ d ∧
      Height.Balanced (Height.image (powerHeights χ range points) θ)
        (fun i => χ.heights values i * Height.image (powerHeights χ range points) σ i)
        (χ.value fit.gap) := by
  obtain ⟨X, powers, readX⟩ := reads_ofPowers (χ := χ) order denominator pos points
  obtain ⟨Y, diagonal, readY⟩ := reads_ofDiagonal (χ := χ) pos values
  obtain ⟨YX, multiplied, readYX⟩ := readY.mul readX
  simp only [ite_mul, zero_mul, Finset.sum_ite_eq, Finset.mem_univ, if_true] at readYX
  have rowX := row_ne_zero (χ := χ) order points
  have rowYX (i : Fin m) : ∃ j, χ.heights values i * powerHeights χ range points i j ≠ 0 :=
    (rowX i).imp fun _ entry => mul_ne_zero (χ.heights_ne_zero values i) entry
  -- the run starts from ones, so the first image has no zero
  obtain ⟨x, accepted, start⟩ := TwoSided.Settings.exists_check_default readX readYX
  obtain ⟨sol, θ, σ, solved, readθ, readσ, member, balanced⟩ :=
    TwoSided.Settings.exists_solve_balances accepted pos readX readYX rowX rowYX start
      fun i => Height.image_one_ne_zero (rowX i)
  obtain ⟨P, numerator⟩ := Polynomial.exists_ofColumn_eq_ok order denominator readθ
  obtain ⟨Q, divisor⟩ := Polynomial.exists_ofColumn_eq_ok order denominator readσ
  refine ⟨⟨P, Q, sol.gap, sol.termination⟩, sol.theta, sol.sigma, θ, σ, ?_, numerator, divisor,
    readθ, readσ, member, ?_⟩
  -- the steps of the program, in its order
  · refine require_bind_eq_ok_iff.mpr ⟨by simp [ofFn], ?_⟩
    refine bind_eq_ok_iff.mpr ⟨X, powers, bind_eq_ok_iff.mpr ⟨Y, diagonal, ?_⟩⟩
    refine bind_eq_ok_iff.mpr ⟨YX, multiplied, bind_eq_ok_iff.mpr ⟨sol, solved, ?_⟩⟩
    simp [numerator, divisor, bind, Except.bind, pure, Except.pure]
  · rwa [Height.image_rows_mul] at balanced

/-- A quotient can be fitted to every list of rational samples, and its values are rational numbers
whose largest deviation from the samples is half of the gap, whatever ended the search for it. -/
theorem fitRational_deviation (exact : d.IsExact) {points values : List Rat} (given : points ≠ [])
    (same : points.length = values.length) (order : range.left ≤ range.right)
    (denominator : range.d ≠ 0) :
    ∃ fit δ, fitRational d ⟨points.map rational, values.map rational⟩ range = .ok fit ∧
      fit.gap = rational δ ∧ ∃ u : Fin points.length → Rat,
        (∀ i, fit.value d (rational (points.get i)) = .ok (rational (u i))) ∧
        IsGreatest (Set.range fun i => |u i - values.get (i.cast same)|) (|δ| / 2) := by
  obtain ⟨χ⟩ := Dioid.Chart.nonempty exact
  have pos : 0 < points.length := List.length_pos_iff.mpr given
  rw [eq_ofFn same]
  obtain ⟨fit, theta, sigma, θ, σ, fitted, numerator, divisor, readθ, readσ, member, balanced⟩ :=
    fitRational_reads χ order denominator pos points.get fun i => values.get (i.cast same)
  have quotients := balanced.div
  -- no quotient is zero, so each of them is a rational number
  obtain ⟨u, returned, heights⟩ := χ.exists_heights_eq
    (RationalFit.value_ofColumns readθ readσ numerator divisor points.get) quotients.left_ne_zero
  rw [heights] at quotients
  obtain ⟨δ, gap, greatest⟩ := χ.isGreatest_of_balanced member quotients
  exact ⟨fit, δ, fitted, gap, u, returned, greatest⟩

-- the difference of two convex polynomials
theorem fitRational_deviation_tent :
    ∃ fit δ, fitRational .maxPlus ⟨[0, 1, 2].map rational, [0, 1, 0].map rational⟩ ⟨-1, 1, 1⟩ =
        .ok fit ∧ fit.gap = rational δ ∧ ∃ u : Fin 3 → Rat,
        (∀ i, fit.value .maxPlus (rational ([0, 1, 2].get i)) = .ok (rational (u i))) ∧
        IsGreatest (Set.range fun i => |u i - [0, 1, 0].get i|) (|δ| / 2) :=
  @fitRational_deviation .maxPlus ⟨-1, 1, 1⟩ .maxPlus [0, 1, 2] [0, 1, 0] (List.cons_ne_nil _ _)
    rfl (by decide) Nat.one_ne_zero

end Samples

end TropicalAlgebra
