import TropicalAlgebra.Fitting.ExponentRange

/-!
# Tropical polynomials

A polynomial is a sum of terms `c ⊗ x ^ e`. The exponents may be negative or fractions.
-/

namespace TropicalAlgebra

/-- A term `c ⊗ x ^ e` of a polynomial. -/
structure Monomial (α : Type) where
  coefficient : α
  exponent : α

/-- A sum of terms, in the order of their exponents. -/
structure Polynomial (α : Type) where
  terms : List (Monomial α)

namespace Polynomial

variable {α : Type}

def coefficients (P : Polynomial α) : List α := P.terms.map Monomial.coefficient

def exponents (P : Polynomial α) : List α := P.terms.map Monomial.exponent

variable [Scalar α]

/-- The polynomial whose coefficients for the exponents of `range` are the entries of a column. -/
def ofColumn (column : Matrix α) (range : ExponentRange) : Outcome α (Polynomial α) := do
  range.check
  require (column.shape = ⟨range.length, 1⟩)
    (.shape (.coefficientVector range.length column.shape))
  pure ⟨List.zipWith Monomial.mk column.toList range.exponents⟩

end Polynomial

section Value

variable {α : Type} [Scalar α] (d : Dioid α)

def Monomial.value (m : Monomial α) (x : α) : Outcome α α := do
  let power ← d.pow x m.exponent
  pure (d.mul m.coefficient power)

/-- The value of a polynomial at `x`. A term whose coefficient is zero is left out. -/
def Polynomial.value (P : Polynomial α) (x : α) : Outcome α α := do
  let present := P.terms.filter fun m => !d.isZero m.coefficient
  let values ← present.mapM fun m => m.value d x
  pure (d.sum values)

end Value

end TropicalAlgebra
