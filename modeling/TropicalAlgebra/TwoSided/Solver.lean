import TropicalAlgebra.Matrix.Arithmetic
import TropicalAlgebra.Matrix.Text

/-!
# Two-sided equations

`A ⊗ θ = B ⊗ σ` is approached by half-steps in turn: `σ` is fitted to `θ`, then `θ` to `σ`, and so
on. The gap that a half-step leaves is one exactly when both sides agree. The iteration ends when
there is no gap, when a vector seen before returns, or when the rounds are used up.
-/

namespace TropicalAlgebra

namespace TwoSided

/-- The vector that a half-step fits, and the gap it leaves. -/
structure HalfStep (α : Type) where
  vector : Matrix α
  gap : α

/-- Fit `y` in `lhs ⊗ x = rhs ⊗ y` while `x` is held fixed. -/
def halfStep {α : Type} [Scalar α] (d : Dioid α) (lhs rhs x : Matrix α) :
    Outcome α (HalfStep α) := do
  let target ← lhs.mul d x
  let greatest ← rhs.subsolution d target
  let reached ← rhs.mul d greatest
  let comparison ← (reached.pseudoInverse d).mul d lhs
  let gap := (← comparison.mul d x).corner
  let vector ← greatest.centred d gap
  pure ⟨vector, gap⟩

/-- Why the iteration ended. -/
inductive Termination where
  /-- The last half-step left no gap. -/
  | converged
  /-- The last half-step returned to an earlier vector of its side. -/
  | cycle
  /-- No rounds were left. -/
  | iterationLimit
  deriving DecidableEq

def Termination.text : Termination → String
  | converged => "converged"
  | cycle => "cycle"
  | iterationLimit => "iteration limit"

/-- The vectors found for both sides, the gap of the last half-step and the number of rounds
begun. -/
structure Solution (α : Type) where
  theta : Matrix α
  sigma : Matrix α
  gap : α
  iterations : Nat
  termination : Termination
  deriving DecidableEq

/-- How to iterate: from which vector, for how many rounds, and up to which difference values
count as equal. -/
structure Settings (α : Type) [Scalar α] where
  initial : Option (Matrix α) := none
  maxIterations : Nat := 1000
  tolerance : α := Scalar.ofInt 0

variable {α : Type} [Scalar α]

/-- What a round starts from: the vector on the left, the earlier vectors of both sides with the
latest first, and the number of rounds before. -/
structure Trail (α : Type) where
  x : Matrix α
  earlierX : List (Matrix α)
  earlierY : List (Matrix α)
  rounds : Nat

inductive Round (α : Type) where
  | stopped (theta sigma : Matrix α) (gap : α) (termination : Termination)
  | completed (x y : Matrix α) (gap : α)

/-- The trail after a round that ended with the vectors `x` and `y`. -/
def Trail.follow (t : Trail α) (x y : Matrix α) : Trail α :=
  ⟨x, t.x :: t.earlierX, y :: t.earlierY, t.rounds + 1⟩

/-- Whether to stop after a half-step, given the earlier vectors of its side. -/
def stop? (d : Dioid α) (tolerance : α) (h : HalfStep α) (earlier : List (Matrix α)) :
    Option Termination :=
  if Scalar.approxEq tolerance h.gap d.one then some .converged
  else if earlier.any fun v => v.approxEq tolerance h.vector then some .cycle
  else none

/-- One round: fit the right side, then the left one. -/
def round (d : Dioid α) (tolerance : α) (A B : Matrix α) (t : Trail α) :
    Outcome α (Round α) := do
  let right ← halfStep d A B t.x
  match stop? d tolerance right t.earlierY with
  | some termination => pure (.stopped t.x right.vector right.gap termination)
  | none =>
      let left ← halfStep d B A right.vector
      -- the vector that the round started from is an earlier one by now
      match stop? d tolerance left (t.x :: t.earlierX) with
      | some termination => pure (.stopped left.vector right.vector left.gap termination)
      | none => pure (.completed left.vector right.vector left.gap)

/-- Rounds until one stops, and at most `spare` after the first. -/
def iterate (d : Dioid α) (tolerance : α) (A B : Matrix α) (spare : Nat) (t : Trail α) :
    Outcome α (Solution α) := do
  match ← round d tolerance A B t with
  | .stopped theta sigma gap termination => pure ⟨theta, sigma, gap, t.rounds + 1, termination⟩
  | .completed x y gap =>
      match spare with
      | 0 => pure ⟨x, y, gap, t.rounds + 1, .iterationLimit⟩
      | spare + 1 => iterate d tolerance A B spare (t.follow x y)

namespace Settings

variable (s : Settings α) (d : Dioid α)

def acceptsTolerance : Bool :=
  decide (Scalar.ofInt 0 ≤ s.tolerance) && Scalar.isFinite s.tolerance

/-- The vector to start from, which has to have as many entries as `A` has columns. -/
def startingVector (A : Matrix α) : Outcome α (Matrix α) :=
  match s.initial with
  | some x => do
      require (x.shape = ⟨A.cols, 1⟩) (.shape (.initialVector A.cols x.shape))
      x.checked d
  | none => do
      require (d.one ∈ d) (.configuration (.oneOutside d.one d.name))
      Matrix.ones d A.cols

/-- Refuse operands and settings that the iteration cannot be run with. -/
def check (A B : Matrix α) : Outcome α (Matrix α) := do
  require (A.rows = B.rows) (.shape (.mismatch .twoSidedEquation A.shape B.shape))
  require (s.maxIterations ≠ 0) (.configuration .noIterations)
  require s.acceptsTolerance (.configuration (.tolerance s.tolerance))
  A.validate d
  B.validate d
  s.startingVector d A

/-- Vectors `θ` and `σ` that bring `A ⊗ θ` and `B ⊗ σ` together. -/
def solve (A B : Matrix α) : Outcome α (Solution α) := do
  let x ← s.check d A B
  iterate d s.tolerance A B (s.maxIterations - 1) ⟨x, [], [], 0⟩

end Settings

def solve (d : Dioid α) (A B : Matrix α) (initial : Option (Matrix α)) :
    Outcome α (Solution α) :=
  Settings.solve { initial } d A B

end TwoSided

end TropicalAlgebra
