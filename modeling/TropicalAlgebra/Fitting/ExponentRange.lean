import TropicalAlgebra.Matrix.Arithmetic

/-!
# Ranges of exponents

The exponents `left/d, (left + 1)/d, …, right/d` of a tropical polynomial, and the matrix of the
powers of some points with these exponents.
-/

namespace TropicalAlgebra

/-- The exponents `left/d, (left + 1)/d, …, right/d`; none if `right` is less than `left`. -/
structure ExponentRange where
  left : Int
  right : Int
  d : Nat := 1
  deriving DecidableEq

namespace ExponentRange

variable {α : Type}

def length (r : ExponentRange) : Nat := (r.right - r.left + 1).toNat

def isEmpty (r : ExponentRange) : Bool := r.length == 0

theorem isEmpty_iff (r : ExponentRange) : r.isEmpty = true ↔ r.right < r.left := by
  simp only [isEmpty, length, beq_iff_eq]
  omega

/-- Refuse a range without exponents or without a denominator. -/
def check (r : ExponentRange) : Outcome α Unit := do
  require (r.left ≤ r.right) (.configuration (.exponentOrder r.left r.right))
  require (r.d ≠ 0) (.configuration .noDenominator)

variable [Scalar α]

def exponents (r : ExponentRange) : List α :=
  (List.range r.length).map fun (k : Nat) => Scalar.ofRatio (r.left + k) r.d

@[simp] theorem length_exponents (r : ExponentRange) :
    (r.exponents : List α).length = r.length := by
  simp [exponents]

end ExponentRange

namespace Matrix

variable {α : Type} [Scalar α] (d : Dioid α)

/-- The powers of every point with every exponent of the range, one row for each point. -/
def ofPowers (points : List α) (range : ExponentRange) : Outcome α (Matrix α) := do
  range.check
  require (points ≠ []) (.configuration .noPoints)
  let rows ← points.mapM fun x => range.exponents.mapM fun e => d.pow x e
  ofRows rows

/-- The values on the diagonal and zero elsewhere. -/
def ofDiagonal (values : List α) : Outcome α (Matrix α) := do
  require (values ≠ []) (.configuration .noValues)
  let values ← values.mapM d.element
  generate values.length values.length fun i j =>
    if i = j then values[i]?.getD d.zero else d.zero

end Matrix

end TropicalAlgebra
