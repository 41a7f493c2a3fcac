import TropicalAlgebra.Closure.Trace

/-!
# The Kleene star

The closure of a square matrix is the sum of all its powers. It exists if no closed walk improves on
the empty one, and then the powers below the size of the matrix suffice. Otherwise the sum of
finitely many powers can stand in for it.
-/

namespace TropicalAlgebra

/-- The sum of all powers of a matrix, or of those up to an exponent where there is no such sum. -/
inductive Closure (α : Type) where
  | exact (star : Matrix α)
  | upTo (highest : Nat) (total : Matrix α)
  deriving DecidableEq

namespace Closure

variable {α : Type}

def matrix : Closure α → Matrix α
  | exact star => star
  | upTo _ total => total

def star? : Closure α → Option (Matrix α)
  | exact star => some star
  | upTo _ _ => none

def isExact (c : Closure α) : Bool := c.star?.isSome

/-- The greatest exponent of a sum that is not the full closure. -/
def highest? : Closure α → Option Nat
  | exact _ => none
  | upTo highest _ => some highest

end Closure

namespace Matrix

variable {α : Type} [Scalar α] (d : Dioid α)

/-- The closure of a square matrix; an error if its power trace exceeds one. -/
def star (M : Matrix α) : Outcome α (Matrix α) := do
  let P ← M.powers d M.rows true
  let trace := P.traceSum d
  require (¬ d.dominates trace d.one) (.notWellDefined trace d.one)
  P.sumUpTo d (M.rows - 1)

/-- The closure of a square matrix, or else the sum of its powers up to the exponent `highest`,
which is one less than the size of the matrix if it is left open. -/
def closure (M : Matrix α) (highest : Option Nat) : Outcome α (Closure α) := do
  let P ← M.powers d M.rows true
  if d.dominates (P.traceSum d) d.one then
    let k := highest.getD (M.cols - 1)
    let P ← P.extended d k
    pure (.upTo k (← P.sumUpTo d k))
  else pure (.exact (← P.sumUpTo d (M.rows - 1)))

end Matrix

end TropicalAlgebra
