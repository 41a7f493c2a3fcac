import TropicalAlgebra.Proofs.Storage.Arithmetic
import TropicalAlgebra.TwoSided.Solver

/-!
# Two-sided equations on stored cells

Half-steps multiply, invert and read a single cell, and the iteration compares the vectors it finds.
None of the products has more cells than both factors, so nothing that comes up is too large for a
word, and the iteration holds the vectors that it finds for matrices.
-/

namespace TropicalAlgebra

open Access Stored
open TropicalAlgebra.Matrix (wordSize HeldIn HeldAs)

variable {α : Type} [Scalar α] (w : Overflow) (d : Dioid α)

namespace Stored

/-- The greatest `x` with `A ⊗ x ≤ b`. -/
def subsolution (A b : Stored α) : Access α (Stored α) := do
  let product ← (← b.pseudoInverse w d).mul w d A
  product.pseudoInverse w d

/-- The multiple of `x` by the square root of `gap`. -/
def centred (x : Stored α) (gap : α) : Access α (Stored α) := do
  let half ← of (d.pow gap (Scalar.ofRatio 1 2))
  x.scale w d half

variable {w} {A b x : Matrix α} {S T : Stored α} {m n : Nat}

theorem renders_subsolution (heldA : A.HeldAs m n S) (heldB : b.HeldAs m 1 T) :
    Renders (HeldAs n 1) (S.subsolution w d T) (A.subsolution d b) := by
  have fits : 1 * n < wordSize := by
    rw [Nat.one_mul]
    exact heldA.cols_lt
  refine (renders_pseudoInverse d heldB).bind_ok fun inverse => ?_
  exact (renders_product d inverse heldA fits).bind fun product => renders_pseudoInverse d product

theorem renders_centred (held : x.HeldAs m n S) (gap : α) :
    Renders (HeldAs m n) (S.centred w d gap) (x.centred d gap) :=
  (Renders.of _).bind fun same => same ▸ renders_scale d held _

end Stored

/-! ### Two-sided equations -/

/-- The vector that a half-step fits, and the gap it leaves. -/
structure StoredHalfStep (α : Type) where
  vector : Stored α
  gap : α

/-- The vectors found for both sides, the gap of the last half-step and the number of rounds
begun. -/
structure StoredSolution (α : Type) where
  theta : Stored α
  sigma : Stored α
  gap : α
  iterations : Nat
  termination : TwoSided.Termination

inductive StoredRound (α : Type) where
  | stopped (theta sigma : Stored α) (gap : α) (termination : TwoSided.Termination)
  | completed (x y : Stored α) (gap : α)

namespace TwoSided

/-- The fitted vector is held with `n` entries. -/
structure HalfStep.HeldAs (n : Nat) (h : HalfStep α) (h' : StoredHalfStep α) : Prop where
  vector : h.vector.HeldAs n 1 h'.vector
  gap : h'.gap = h.gap

/-- The vectors are held with `p` entries on the left and `q` on the right. -/
structure Solution.HeldAs (p q : Nat) (s : Solution α) (s' : StoredSolution α) : Prop where
  theta : s.theta.HeldAs p 1 s'.theta
  sigma : s.sigma.HeldAs q 1 s'.sigma
  gap : s'.gap = s.gap
  iterations : s'.iterations = s.iterations
  termination : s'.termination = s.termination

/-- The vectors are held with `p` entries on the left and `q` on the right. -/
inductive Round.HeldAs (p q : Nat) : Round α → StoredRound α → Prop
  | stopped {theta sigma : Matrix α} {theta' sigma' : Stored α} (left : theta.HeldAs p 1 theta')
      (right : sigma.HeldAs q 1 sigma') (gap : α) (termination : Termination) :
      HeldAs p q (.stopped theta sigma gap termination) (.stopped theta' sigma' gap termination)
  | completed {x y : Matrix α} {x' y' : Stored α} (left : x.HeldAs p 1 x')
      (right : y.HeldAs q 1 y') (gap : α) :
      HeldAs p q (.completed x y gap) (.completed x' y' gap)

end TwoSided

namespace Stored

/-- Fit `y` in `lhs ⊗ x = rhs ⊗ y` while `x` is held fixed. -/
def halfStep (lhs rhs x : Stored α) : Access α (StoredHalfStep α) := do
  let target ← lhs.mul w d x
  let greatest ← rhs.subsolution w d target
  let reached ← rhs.mul w d greatest
  let comparison ← (← reached.pseudoInverse w d).mul w d lhs
  let gap ← (← comparison.mul w d x).index w 0 0
  let vector ← greatest.centred w d gap
  pure ⟨vector, gap⟩

/-- Whether to stop after a half-step, given the earlier vectors of its side. -/
def stop? (tolerance : α) (h : StoredHalfStep α) (earlier : List (Stored α)) :
    Option TwoSided.Termination :=
  if Scalar.approxEq tolerance h.gap d.one then some .converged
  else if earlier.any fun v => v.all₂ (Scalar.approxEq tolerance) h.vector then some .cycle
  else none

/-- One round from the vector `x` on the left: fit the right side, then the left one. -/
def round (tolerance : α) (A B x : Stored α) (earlierX earlierY : List (Stored α)) :
    Access α (StoredRound α) := do
  let right ← halfStep w d A B x
  match stop? d tolerance right earlierY with
  | some termination => pure (.stopped x right.vector right.gap termination)
  | none =>
      let left ← halfStep w d B A right.vector
      match stop? d tolerance left (x :: earlierX) with
      | some termination => pure (.stopped left.vector right.vector left.gap termination)
      | none => pure (.completed left.vector right.vector left.gap)

/-- Rounds until one stops, and at most `spare` after the first. -/
def iterate (tolerance : α) (A B : Stored α) (spare : Nat) (x : Stored α)
    (earlierX earlierY : List (Stored α)) (rounds : Nat) : Access α (StoredSolution α) := do
  match ← round w d tolerance A B x earlierX earlierY with
  | .stopped theta sigma gap termination => pure ⟨theta, sigma, gap, rounds + 1, termination⟩
  | .completed next y gap =>
      match spare with
      | 0 => pure ⟨next, y, gap, rounds + 1, .iterationLimit⟩
      | spare + 1 =>
          iterate tolerance A B spare next (x :: earlierX) (y :: earlierY) (rounds + 1)

/-- The vector to start from, which has to have as many entries as `A` has columns. -/
def startingVector (initial : Option (Stored α)) (A : Stored α) : Access α (Stored α) :=
  match initial with
  | some x => do
      of (require (x.shape = ⟨A.cols, 1⟩) (.shape (.initialVector A.cols x.shape)))
      x.checked d
  | none => do
      of (require (d.one ∈ d) (.configuration (.oneOutside d.one d.name)))
      ones w d A.cols

/-- Vectors `θ` and `σ` that bring `A ⊗ θ` and `B ⊗ σ` together. -/
def solve (initial : Option (Stored α)) (maxIterations : Nat) (tolerance : α) (A B : Stored α) :
    Access α (StoredSolution α) := do
  of (require (A.rows = B.rows) (.shape (.mismatch .twoSidedEquation A.shape B.shape)))
  of (require (maxIterations ≠ 0) (.configuration .noIterations))
  of (require (TwoSided.Settings.acceptsTolerance { tolerance })
    (.configuration (.tolerance tolerance)))
  A.validate d
  B.validate d
  let x ← startingVector w d initial A
  iterate w d tolerance A B (maxIterations - 1) x [] [] 0

/-- The same with the settings that hold unless told otherwise. -/
def solveWithDefaults (initial : Option (Stored α)) (A B : Stored α) :
    Access α (StoredSolution α) :=
  let settings : TwoSided.Settings α := {}
  solve w d initial settings.maxIterations settings.tolerance A B

variable {w} {m n p q : Nat} {A B x : Matrix α} {S T U : Stored α}

theorem renders_halfStep (heldA : A.HeldAs m p S) (heldB : B.HeldAs m q T)
    (heldX : x.HeldAs p 1 U) :
    Renders (TwoSided.HalfStep.HeldAs q) (halfStep w d S T U) (TwoSided.halfStep d A B x) := by
  -- the products are vectors with as many entries as a factor has rows or columns
  have column : m * 1 < wordSize := by
    rw [Nat.mul_one]
    exact heldA.rows_lt
  have row : 1 * p < wordSize := by
    rw [Nat.one_mul]
    exact heldA.cols_lt
  refine (renders_product d heldA heldX column).bind fun target => ?_
  refine (renders_subsolution d heldB target).bind fun greatest => ?_
  refine (renders_product d heldB greatest column).bind fun reached => ?_
  refine (renders_pseudoInverse d reached).bind_ok fun inverse => ?_
  refine (renders_product d inverse heldA row).bind fun comparison => ?_
  refine (renders_product d comparison heldX one_lt_wordSize).bind fun single => ?_
  refine (renders_corner single.toHeldIn).bind_ok fun gap => ?_
  subst gap
  exact (renders_centred d greatest _).bind fun vector => .ok ⟨vector, rfl⟩

theorem stop?_held (tolerance : α) {h : TwoSided.HalfStep α} {h' : StoredHalfStep α}
    (held : h.HeldAs n h') {earlier : List (Matrix α)} {earlier' : List (Stored α)}
    (vectors : List.Forall₂ (HeldAs n 1) earlier earlier') :
    stop? d tolerance h' earlier' = TwoSided.stop? d tolerance h earlier := by
  have seen : (earlier'.any fun v => v.all₂ (Scalar.approxEq tolerance) h'.vector) =
      earlier.any fun v => v.approxEq tolerance h.vector := by
    induction vectors with
    | nil => rfl
    | cons first _ ih =>
      rw [List.any_cons, List.any_cons, ih, first.stored, held.vector.stored]
      rfl
  rw [stop?, TwoSided.stop?, seen, held.gap]

theorem renders_round (tolerance : α) (heldA : A.HeldAs m p S) (heldB : B.HeldAs m q T)
    {t : TwoSided.Trail α} (heldX : t.x.HeldAs p 1 U) {earlierX earlierY : List (Stored α)}
    (left : List.Forall₂ (HeldAs p 1) t.earlierX earlierX)
    (right : List.Forall₂ (HeldAs q 1) t.earlierY earlierY) :
    Renders (TwoSided.Round.HeldAs p q) (round w d tolerance S T U earlierX earlierY)
      (TwoSided.round d tolerance A B t) := by
  refine (renders_halfStep d heldA heldB heldX).bind fun {fitted _} heldY => ?_
  rw [stop?_held d tolerance heldY right]
  cases TwoSided.stop? d tolerance fitted t.earlierY with
  | some termination =>
    rw [heldY.gap]
    exact .ok (.stopped heldX heldY.vector _ termination)
  | none =>
    refine (renders_halfStep d heldB heldA heldY.vector).bind fun {next _} heldNext => ?_
    rw [stop?_held d tolerance heldNext (.cons heldX left)]
    cases TwoSided.stop? d tolerance next (t.x :: t.earlierX) with
    | some termination =>
      rw [heldNext.gap]
      exact .ok (.stopped heldNext.vector heldY.vector _ termination)
    | none =>
      rw [heldNext.gap]
      exact .ok (.completed heldNext.vector heldY.vector _)

theorem renders_iterate (tolerance : α) (heldA : A.HeldAs m p S) (heldB : B.HeldAs m q T)
    (spare : Nat) {t : TwoSided.Trail α} (heldX : t.x.HeldAs p 1 U)
    {earlierX earlierY : List (Stored α)} (left : List.Forall₂ (HeldAs p 1) t.earlierX earlierX)
    (right : List.Forall₂ (HeldAs q 1) t.earlierY earlierY) :
    Renders (TwoSided.Solution.HeldAs p q)
      (iterate w d tolerance S T spare U earlierX earlierY t.rounds)
      (TwoSided.iterate d tolerance A B spare t) := by
  induction spare generalizing t U earlierX earlierY with
  | zero =>
    rw [iterate, TwoSided.iterate]
    refine (renders_round d tolerance heldA heldB heldX left right).bind fun round => ?_
    cases round with
    | stopped theta sigma gap termination => exact .ok ⟨theta, sigma, rfl, rfl, rfl⟩
    | completed x y gap => exact .ok ⟨x, y, rfl, rfl, rfl⟩
  | succ spare ih =>
    rw [iterate, TwoSided.iterate]
    refine (renders_round d tolerance heldA heldB heldX left right).bind fun round => ?_
    cases round with
    | stopped theta sigma gap termination => exact .ok ⟨theta, sigma, rfl, rfl, rfl⟩
    | @completed x y _ _ heldX' heldY gap =>
      exact ih (t := t.follow x y) heldX' (.cons heldX left) (.cons heldY right)

theorem renders_startingVector {s : TwoSided.Settings α} {initial : Option (Stored α)}
    (start : Option.Rel HeldIn s.initial initial) (heldA : A.HeldIn S) :
    Renders (HeldAs A.cols 1) (startingVector w d initial S) (s.startingVector d A) := by
  unfold startingVector TwoSided.Settings.startingVector
  generalize s.initial = given at start
  cases start with
  | none =>
    obtain rfl := heldA.stored
    exact (Renders.of _).bind fun _ => renders_ones d heldA.sized.cols_lt
  | @some x _ heldX =>
    obtain rfl := heldA.stored
    obtain rfl := heldX.stored
    refine ((Renders.of _).and_ok fun _ => require_eq_ok_iff.mp).bind fun accepted => ?_
    obtain ⟨rows, cols⟩ := Shape.mk.inj accepted.2
    exact renders_checked d ⟨heldX, rows, cols⟩

theorem renders_solve {s : TwoSided.Settings α} {initial : Option (Stored α)}
    (start : Option.Rel HeldIn s.initial initial) (heldA : A.HeldIn S) (heldB : B.HeldIn T) :
    Renders (TwoSided.Solution.HeldAs A.cols B.cols)
      (solve w d initial s.maxIterations s.tolerance S T) (s.solve d A B) := by
  obtain rfl := heldA.stored
  obtain rfl := heldB.stored
  simp only [solve, TwoSided.Settings.solve, TwoSided.Settings.check, bind_assoc]
  refine ((Renders.of _).and_ok fun _ => require_eq_ok_iff.mp).bind fun same => ?_
  refine (Renders.of _).bind fun _ => (Renders.of _).bind fun _ => ?_
  refine (renders_validate d heldA).bind fun _ => (renders_validate d heldB).bind fun _ => ?_
  refine (renders_startingVector d start heldA).bind fun heldX => ?_
  exact renders_iterate d s.tolerance ⟨heldA, same.2, rfl⟩ heldB.sized _
    (t := ⟨_, [], [], 0⟩) heldX .nil .nil

theorem renders_solveWithDefaults (heldA : A.HeldIn S) (heldB : B.HeldIn T) :
    Renders (TwoSided.Solution.HeldAs A.cols B.cols) (solveWithDefaults w d none S T)
      (TwoSided.solve d A B none) :=
  renders_solve d (s := {}) .none heldA heldB

end Stored

end TropicalAlgebra
