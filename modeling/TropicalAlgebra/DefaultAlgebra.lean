import TropicalAlgebra.Dioid.Tropical

/-!
# Algebras by name

A name stands for one of the four tropical dioids. Callers that stay within one algebra need not name
it at every step. They run in a context that holds the algebra in force, max-plus at first, and can
replace it by another.
-/

namespace TropicalAlgebra

def AlgebraName.dioid {α : Type} [Scalar α] [Pow α α] : AlgebraName → Dioid α
  | maxPlus => .maxPlus
  | minPlus => .minPlus
  | maxTimes => .maxTimes
  | minTimes => .minTimes

theorem AlgebraName.name_dioid {α : Type} [Scalar α] [Pow α α] (n : AlgebraName) :
    (n.dioid : Dioid α).name = n.text := by
  cases n <;> rfl

/-- Computations with an algebra in force. -/
abbrev WithDefault := StateM AlgebraName

namespace WithDefault

def current : WithDefault AlgebraName := get

/-- Put another algebra in force and return the one before. -/
def replace (name : AlgebraName) : WithDefault AlgebraName :=
  modifyGet fun previous => (previous, name)

def within {α β : Type} [Scalar α] [Pow α α] (operation : Dioid α → β) : WithDefault β := do
  let name ← current
  pure (operation name.dioid)

end WithDefault

end TropicalAlgebra
