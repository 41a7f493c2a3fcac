/-!
# The names of the tropical algebras

Four algebras have a name of their own, by which callers choose one while a program runs.
-/

namespace TropicalAlgebra

/-- The named algebras: the larger or the smaller of two values as the sum, and the ordinary sum
or product as the product. -/
inductive AlgebraName where
  | maxPlus
  | minPlus
  | maxTimes
  | minTimes
  deriving DecidableEq

namespace AlgebraName

/-- The names in the order in which they are listed to a reader. -/
def all : List AlgebraName := [maxPlus, minPlus, maxTimes, minTimes]

theorem mem_all (n : AlgebraName) : n ∈ all := by cases n <;> decide

/-- Max-plus unless a caller chooses otherwise. -/
instance : Inhabited AlgebraName := ⟨maxPlus⟩

def text : AlgebraName → String
  | maxPlus => "max-plus"
  | minPlus => "min-plus"
  | maxTimes => "max-times"
  | minTimes => "min-times"

end AlgebraName

end TropicalAlgebra
