/-!
# Scalars

The numbers that a tropical algebra computes with. A scalar type has arithmetic, an order, and an
infinity at each end of that order. Nothing is assumed of its rounding: binary floating point and
the extended rationals are both scalar types.
-/

namespace TropicalAlgebra

/-- Ordered numbers with the four operations, the integers and an infinity at either end. -/
class Scalar (α : Type) extends Add α, Sub α, Mul α, Div α, Neg α, LT α, LE α, BEq α where
  ofInt : Int → α
  infinity : α
  decidableLT : ∀ a b : α, Decidable (a < b)
  decidableLE : ∀ a b : α, Decidable (a ≤ b)

attribute [reducible, instance] Scalar.decidableLT Scalar.decidableLE

namespace Scalar

variable {α : Type} [Scalar α]

def negInfinity : α := -infinity

def ofRatio (m : Int) (d : Nat) : α := ofInt m / ofInt (d : Int)

/-- A value that is not a number is the only one that differs from itself. -/
def isNumber (a : α) : Bool := a == a

/-- Strictly between the two infinities. -/
def isFinite (a : α) : Bool := decide (negInfinity < a) && decide (a < infinity)

def magnitude (a : α) : α := if a < ofInt 0 then -a else a

/-- Neither of two values lies before the other in the order. -/
def orderEq (a b : α) : Bool := !decide (a < b) && !decide (b < a)

/-- Equality of cells: finite values may differ by `tolerance`, all others have to agree in the
order. -/
def approxEq (tolerance a b : α) : Bool :=
  if isFinite a && isFinite b then decide (magnitude (a - b) ≤ tolerance) else orderEq a b

end Scalar

instance : Scalar Float where
  ofInt := Float.ofInt
  infinity := 1.0 / 0.0
  decidableLT := Float.decLt
  decidableLE := Float.decLe

/-- The text of a value inside a message or a printed matrix. -/
class Written (α : Type) where
  text : α → String

end TropicalAlgebra
