import TropicalAlgebra.Matrix

/-!
# Comparing and printing matrices

Two matrices count as equal if they have one shape and no cell of one lies before or after the
matching cell of the other. With a tolerance, finite cells may differ a little. A matrix is printed
with one line for each row. Each row stands in brackets, and so does the whole; infinite cells are
shown by their sign.
-/

namespace TropicalAlgebra

namespace Matrix

variable {α : Type}

/-- The shapes agree and `rel` holds of all matching cells. -/
def all₂ (rel : α → α → Bool) (A B : Matrix α) : Bool :=
  A.shape == B.shape && (A.toList.zip B.toList).all fun cells => rel cells.1 cells.2

variable [Scalar α]

def orderEq (A B : Matrix α) : Bool := all₂ Scalar.orderEq A B

/-- Equality of matrices in which finite cells may differ by `tolerance`. -/
def approxEq (tolerance : α) (A B : Matrix α) : Bool := all₂ (Scalar.approxEq tolerance) A B

section Printing

variable [Written α]

def cellText (a : α) : String :=
  if a == Scalar.negInfinity then "-∞" else if a == Scalar.infinity then "+∞" else Written.text a

def rowText (row : List α) : String := "[" ++ ", ".intercalate (row.map cellText) ++ "]"

def text (M : Matrix α) : String := "[" ++ "\n ".intercalate (M.rowLists.map rowText) ++ "]"

end Printing

end Matrix

end TropicalAlgebra
