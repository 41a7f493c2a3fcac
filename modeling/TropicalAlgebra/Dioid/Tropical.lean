import TropicalAlgebra.Dioid

/-!
# The four tropical dioids

The sum picks the larger or the smaller of two scalars. The product is their ordinary sum or
product; powers and inverses follow the product. Zero is the scalar that loses against all others.
-/

namespace TropicalAlgebra

namespace Dioid

variable {α : Type} [Scalar α]

/-- The larger of two scalars; the first of two that are equal, the second if either is no
number. -/
def larger (a b : α) : α := if b ≤ a then a else b

/-- The smaller of two scalars; the first of two that are equal, the second if either is no
number. -/
def smaller (a b : α) : α := if a ≤ b then a else b

/-- The negative of every scalar except `zero`. -/
def opposite (zero a : α) : α := if a == zero then a else -a

/-- The reciprocal of every scalar except `zero`. -/
def reciprocal (zero a : α) : α := if a == zero then a else Scalar.ofInt 1 / a

/-- Longest paths: the reals with `-∞`, under maximum and addition. -/
def maxPlus : Dioid α where
  name := AlgebraName.maxPlus.text
  zero := Scalar.negInfinity
  one := Scalar.ofInt 0
  add := larger
  mul a b := a + b
  rawPow a p := a * p
  inv := opposite Scalar.negInfinity
  contains a := Scalar.isNumber a && a != Scalar.infinity

/-- Shortest paths: the reals with `+∞`, under minimum and addition. -/
def minPlus : Dioid α where
  name := AlgebraName.minPlus.text
  zero := Scalar.infinity
  one := Scalar.ofInt 0
  add := smaller
  mul a b := a + b
  rawPow a p := a * p
  inv := opposite Scalar.infinity
  contains a := Scalar.isNumber a && a != Scalar.negInfinity

/-- Most reliable paths: the finite reals from `0` up, under maximum and multiplication. -/
def maxTimes [Pow α α] : Dioid α where
  name := AlgebraName.maxTimes.text
  zero := Scalar.ofInt 0
  one := Scalar.ofInt 1
  add := larger
  mul a b := a * b
  rawPow a p := a ^ p
  inv := reciprocal (Scalar.ofInt 0)
  contains a := Scalar.isFinite a && decide (Scalar.ofInt 0 ≤ a)

/-- Least risky paths: the positive reals with `+∞`, under minimum and multiplication. -/
def minTimes [Pow α α] : Dioid α where
  name := AlgebraName.minTimes.text
  zero := Scalar.infinity
  one := Scalar.ofInt 1
  add := smaller
  mul a b := a * b
  rawPow a p := a ^ p
  inv := reciprocal Scalar.infinity
  contains a := Scalar.isNumber a && decide (Scalar.ofInt 0 < a)

end Dioid

end TropicalAlgebra
