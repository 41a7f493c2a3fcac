import TropicalAlgebra.Matrix.Powers

/-!
# Traces and the spectral radius

The diagonal of a power of a matrix holds the weights of the closed walks with that many edges.
The power trace sums them over the exponents `1, …, n`, and so does the spectral radius with the
mean weight of an edge in place of the weight of the walk.
-/

namespace TropicalAlgebra

namespace Matrix

variable {α : Type} [Scalar α] (d : Dioid α)

def diagonalSum (M : Matrix α) : α := d.sum M.diagonal

def trace (M : Matrix α) : Outcome α α := do
  M.requireSquare
  pure (M.diagonalSum d)

end Matrix

namespace Powers

variable {α : Type} [Scalar α] (d : Dioid α)

/-- The traces of the powers with the exponents from one on. -/
def traces (P : Powers α) : List α := P.positive.map (Matrix.diagonalSum d)

def traceSum (P : Powers α) : α := d.sum (P.traces d)

/-- The traces other than zero, each with its exponent. -/
def cycleWeights (P : Powers α) : List (α × Nat) :=
  ((P.traces d).zipIdx 1).filter fun w => !d.isZero w.1

end Powers

/-- The mean weight of an edge on a closed walk of weight `w.1` with `w.2` edges. -/
def Dioid.meanWeight {α : Type} [Scalar α] (d : Dioid α) (w : α × Nat) : Outcome α α :=
  d.pow w.1 (Scalar.ofRatio 1 w.2)

namespace Matrix

variable {α : Type} [Scalar α] (d : Dioid α)

/-- The sum of the traces of the first `n` powers of an `n × n` matrix. -/
def traceSum (M : Matrix α) : Outcome α α := do
  let P ← M.powers d M.rows false
  pure (P.traceSum d)

/-- The sum over `k = 1, …, n` of the `k`-th roots of the traces of the `k`-th powers. -/
def spectralRadius (M : Matrix α) : Outcome α α := do
  let P ← M.powers d M.rows false
  let means ← (P.cycleWeights d).mapM d.meanWeight
  pure (d.sum means)

end Matrix

end TropicalAlgebra
