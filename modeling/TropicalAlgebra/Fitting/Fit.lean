import TropicalAlgebra.Fitting.Polynomial
import TropicalAlgebra.TwoSided.Solver

/-!
# Fitting sampled data

A tropical polynomial, or a quotient of two, is fitted to values sampled at some points so that the
largest deviation is small. The polynomial has a closed form; the quotient `P ⊗ Q⁻¹` comes from the
two-sided equation `X ⊗ θ = (Y ⊗ X) ⊗ σ`, where `X` holds the powers of the points and `Y` the
values on its diagonal.
-/

namespace TropicalAlgebra

structure Samples (α : Type) where
  points : List α
  values : List α

/-- Refuse samples in which a point or a value is missing. -/
def Samples.check {α : Type} (s : Samples α) : Outcome α Unit :=
  require (s.points.length = s.values.length)
    (.shape (.samples s.points.length s.values.length))

/-- A fitted polynomial and the gap it leaves, the square of the largest deviation. -/
structure PolynomialFit (α : Type) where
  polynomial : Polynomial α
  gap : α

/-- A fitted quotient, the gap it leaves and why the search for it ended. -/
structure RationalFit (α : Type) where
  numerator : Polynomial α
  denominator : Polynomial α
  gap : α
  termination : TwoSided.Termination

variable {α : Type} [Scalar α] (d : Dioid α)

def RationalFit.value (f : RationalFit α) (x : α) : Outcome α α := do
  let p ← f.numerator.value d x
  let q ← f.denominator.value d x
  pure (d.mul p (d.inv q))

namespace Samples

/-- The polynomial with the exponents of `range` that comes closest to the samples. -/
def fitPolynomial (s : Samples α) (range : ExponentRange) : Outcome α (PolynomialFit α) := do
  s.check
  let X ← Matrix.ofPowers d s.points range
  let y ← Matrix.columnVector s.values
  y.validate d
  let greatest ← X.subsolution d y
  let reached ← X.mul d greatest
  let gap := (← (reached.pseudoInverse d).mul d y).corner
  let theta ← greatest.centred d gap
  pure ⟨← Polynomial.ofColumn theta range, gap⟩

/-- A quotient of two polynomials with the exponents of `range` that comes close to the samples. -/
def fitRational (s : Samples α) (range : ExponentRange) : Outcome α (RationalFit α) := do
  s.check
  let X ← Matrix.ofPowers d s.points range
  let Y ← Matrix.ofDiagonal d s.values
  let YX ← Y.mul d X
  let solution ← TwoSided.solve d X YX none
  pure {
    numerator := ← Polynomial.ofColumn solution.theta range
    denominator := ← Polynomial.ofColumn solution.sigma range
    gap := solution.gap
    termination := solution.termination }

end Samples

end TropicalAlgebra
