import TropicalAlgebra.Proofs.Matrix.Shapes
import TropicalAlgebra.Proofs.TwoSided.Recurrence

/-!
# Iterations on operands that fit

Once the operands have been accepted, every matrix of an iteration has the shape that its place
calls for, also where a dimension is one and a product takes a single cell for a scalar. What can
still go wrong is that a scalar turns up that is not an element. For this only zero needs to be an
element.
-/

namespace TropicalAlgebra

open TropicalAlgebra.Matrix

namespace TwoSided

variable {α : Type} [Scalar α]

/-- What a half-step computes before it reads a gap: the greatest vector, and the matrix whose first
cell is the gap. -/
structure Comparison (α : Type) where
  greatest : Matrix α
  product : Matrix α

def comparison (d : Dioid α) (lhs rhs x : Matrix α) : Outcome α (Comparison α) := do
  let target ← lhs.mul d x
  let greatest ← rhs.subsolution d target
  let reached ← rhs.mul d greatest
  let row ← (reached.pseudoInverse d).mul d lhs
  let product ← row.mul d x
  pure ⟨greatest, product⟩

/-- The vector fits the right side, and the gap is a single cell. -/
structure Comparison.Fits (d : Dioid α) (rhs : Matrix α) (c : Comparison α) : Prop where
  rows : c.greatest.rows = rhs.cols
  cols : c.greatest.cols = 1
  product : c.product.Over d 1 1

structure HalfStep.Fits (d : Dioid α) (rhs : Matrix α) (h : HalfStep α) : Prop where
  vector : h.vector.Over d rhs.cols 1
  gap : h.gap ∈ d

variable {d : Dioid α} {A B x : Matrix α} {k : Nat}

/-! ### One half-step -/

section HalfStep

variable {lhs rhs v : Matrix α}

theorem halfStep_eq_comparison (d : Dioid α) (lhs rhs v : Matrix α) :
    halfStep d lhs rhs v = (do
      let c ← comparison d lhs rhs v
      let vector ← c.greatest.centred d c.product.corner
      pure ⟨vector, c.product.corner⟩) := by
  simp only [halfStep, comparison, bind_assoc, pure_bind]

variable (zero : d.zero ∈ d) (rows : lhs.rows = rhs.rows) (held : v.Over d lhs.cols 1)

include zero rows held

theorem safe_comparison : d.Safe (Comparison.Fits d rhs) (comparison d lhs rhs v) := by
  refine (safe_mul zero rfl held.rows.symm held.cols).bind fun {target} overTarget => ?_
  have fits : rhs.rows = target.rows := rows.symm.trans overTarget.rows.symm
  refine (safe_subsolution zero fits).bind fun {greatest} ⟨high, single⟩ => ?_
  refine (safe_mul zero rfl high.symm (single.trans overTarget.cols)).bind
    fun {reached} overReached => ?_
  have inner : (reached.pseudoInverse d).cols = lhs.rows := overReached.rows.trans rows.symm
  refine (safe_mul zero overReached.cols inner rfl).bind fun {row} overRow => ?_
  refine (safe_mul zero overRow.rows (overRow.cols.trans held.rows.symm)
    held.cols).bind fun sized => ?_
  exact .ok ⟨high, single.trans overTarget.cols, sized⟩

theorem safe_halfStep : d.Safe (HalfStep.Fits d rhs) (halfStep d lhs rhs v) := by
  rw [halfStep_eq_comparison]
  refine (safe_comparison zero rows held).bind fun {c} fits => ?_
  exact (safe_centred zero fits.rows fits.cols c.product.corner).bind
    fun sized => .ok ⟨sized, fits.product.corner⟩

end HalfStep

/-- A half-step reads its gap from a matrix with a single cell, and then refuses a scalar or returns
a vector of elements that fits the right side. -/
structure HalfStepSafe (d : Dioid α) (lhs rhs v : Matrix α) : Prop where
  compared : d.Safe (fun c => c.product.shape = ⟨1, 1⟩ ∧ ∃ gap ∈ d, c.product.index 0 0 = .ok gap)
    (comparison d lhs rhs v)
  returned : d.Safe (HalfStep.Fits d rhs) (halfStep d lhs rhs v)
  read : ∀ h, halfStep d lhs rhs v = .ok h →
    ∃ c, comparison d lhs rhs v = .ok c ∧ c.product.index 0 0 = .ok h.gap

theorem halfStepSafe {lhs rhs v : Matrix α} (zero : d.zero ∈ d) (rows : lhs.rows = rhs.rows)
    (held : v.Over d lhs.cols 1) : HalfStepSafe d lhs rhs v where
  compared := (safe_comparison zero rows held).mono fun {c} fits =>
    ⟨fits.product.shape, c.product.corner, fits.product.corner, c.product.index_corner⟩
  returned := safe_halfStep zero rows held
  read h fitted := by
    rw [halfStep_eq_comparison] at fitted
    obtain ⟨c, compared, rest⟩ := bind_eq_ok_iff.mp fitted
    obtain ⟨vector, -, rest⟩ := bind_eq_ok_iff.mp rest
    obtain rfl := Except.ok.inj rest
    exact ⟨c, compared, c.product.index_corner⟩

/-! ### All half-steps -/

/-- The vectors of leg `k` fit their sides. -/
structure Leg.Fits (d : Dioid α) (A B : Matrix α) (k : Nat) (leg : Leg α) : Prop where
  theta : (leg.theta k).Over d A.cols 1
  sigma : (leg.sigma k).Over d B.cols 1
  gap : leg.gap ∈ d

omit [Scalar α] in
theorem Leg.Fits.succ {leg : Leg α} (fits : leg.Fits d B A k) : leg.Fits d A B (k + 1) where
  theta := by
    rw [theta_succ]
    exact fits.sigma
  sigma := by
    rw [sigma_succ]
    exact fits.theta
  gap := fits.gap

theorem safe_alternation (zero : d.zero ∈ d) (rows : A.rows = B.rows) (start : x.Over d A.cols 1)
    (k : Nat) : d.Safe (Leg.Fits d A B k) (alternation d A B x k) := by
  -- the vector that a half-step fits is the one that the next holds fixed
  induction k generalizing A B x with
  | zero =>
    exact (safe_halfStep zero rows start).bind fun fits => .ok ⟨start, fits.vector, fits.gap⟩
  | succ k ih =>
    exact (safe_halfStep zero rows start).bind fun fits =>
      (ih rows.symm fits.vector).mono fun fits' => fits'.succ

theorem vectorAt_over (zero : d.zero ∈ d) (rows : A.rows = B.rows) (start : x.Over d A.cols 1)
    {v : Matrix α} (reached : vectorAt d A B x k = .ok v) :
    v.Over d (if k % 2 = 0 then A.cols else B.cols) 1 := by
  cases k with
  | zero =>
    obtain rfl := Except.ok.inj reached
    exact start
  | succ k =>
    obtain ⟨leg, before, last⟩ := bind_eq_ok_iff.mp reached
    obtain rfl := Except.ok.inj last
    have fits := (safe_alternation zero rows start k).holds before
    -- leg `k` fits the side that its number says
    by_cases even : k % 2 = 0
    · have fitted : leg.sigma k = leg.vector := if_pos even
      rw [if_neg (by omega), ← fitted]
      exact fits.sigma
    · have fitted : leg.theta k = leg.vector := if_neg even
      rw [if_pos (by omega), ← fitted]
      exact fits.theta

/-! ### A whole run -/

/-- The vectors of a solution fit their sides, and it took some of the rounds. -/
structure Solution.Fits (d : Dioid α) (A B : Matrix α) (rounds : Nat) (sol : Solution α) :
    Prop where
  theta : sol.theta.Over d A.cols 1
  sigma : sol.sigma.Over d B.cols 1
  gap : sol.gap ∈ d
  iterations_pos : 1 ≤ sol.iterations
  iterations_le : sol.iterations ≤ rounds

omit [Scalar α] in
theorem Leg.Fits.solution {leg : Leg α} {rounds : Nat} (fits : leg.Fits d A B k)
    (high : k < 2 * rounds) (termination : Termination) :
    (leg.solution k termination).Fits d A B rounds where
  theta := fits.theta
  sigma := fits.sigma
  gap := fits.gap
  iterations_pos := Nat.succ_pos _
  iterations_le := by
    change k / 2 + 1 ≤ rounds
    omega

theorem safe_solve {s : Settings α} (accepted : s.check d A B = .ok x)
    (legs : ∀ k, d.Safe (Leg.Fits d A B k) (alternation d A B x k)) :
    d.Safe (Solution.Fits d A B s.maxIterations) (s.solve d A B) := by
  obtain ⟨k, high, -, event⟩ := Settings.solve_event accepted
  generalize s.solve d A B = outcome at event
  cases event with
  | fails failed =>
    obtain ⟨a, rfl⟩ := (legs k).exists_refused failed
    exact .refuses a
  | converges reached _ => exact .ok (((legs k).holds reached).solution high _)
  | returns reached _ _ => exact .ok (((legs k).holds reached).solution high _)
  | exhausts reached _ _ _ => exact .ok (((legs k).holds reached).solution high _)

theorem Settings.startingVector_over {s : Settings α} (started : s.startingVector d A = .ok x) :
    x.Over d A.cols 1 := by
  have shape : x.rows = A.cols ∧ x.cols = 1 := by
    unfold startingVector at started
    split at started
    next y initial =>
      obtain ⟨shape, accepted⟩ := require_bind_eq_ok_iff.mp started
      obtain ⟨-, rfl⟩ := (Matrix.checked_eq_ok_iff d).mp accepted
      exact Shape.mk.inj shape
    next =>
      obtain ⟨-, filled⟩ := require_bind_eq_ok_iff.mp started
      rw [Matrix.ones_of_pos d A.cols_pos] at filled
      obtain rfl := Except.ok.inj filled
      exact ⟨rfl, rfl⟩
  exact ⟨shape.1, shape.2, startingVector_cells started⟩

/-- A run is refused by its first checks, or all its half-steps are safe, whichever of them it gets
to, and so is its outcome. -/
theorem solve_safe (zero : d.zero ∈ d) (s : Settings α) (A B : Matrix α) :
    (∃ cause, s.check d A B = .error cause ∧ s.solve d A B = .error cause) ∨
    ∃ x, s.check d A B = .ok x ∧
      (∀ k v, vectorAt d A B x k = .ok v →
        if k % 2 = 0 then HalfStepSafe d A B v else HalfStepSafe d B A v) ∧
      d.Safe (Solution.Fits d A B s.maxIterations) (s.solve d A B) := by
  cases accepted : s.check d A B with
  | error cause =>
    left
    refine ⟨cause, rfl, ?_⟩
    rw [Settings.solve, accepted]
    rfl
  | ok x =>
    right
    obtain ⟨rows, -, -, -, -, started⟩ := Settings.check_eq_ok_iff_start.mp accepted
    have start := Settings.startingVector_over started
    refine ⟨x, rfl, fun k v reached => ?_, safe_solve accepted (safe_alternation zero rows start)⟩
    have sized := vectorAt_over zero rows start reached
    by_cases even : k % 2 = 0
    · rw [if_pos even] at sized ⊢
      exact halfStepSafe zero rows sized
    · rw [if_neg even] at sized ⊢
      exact halfStepSafe zero rows.symm sized

/-! ### A dioid without its one -/

open ExtendedRational in
/-- Max-plus with zero among its elements, but not one. -/
def punctured : Dioid ExtendedRational :=
  { Dioid.maxPlus with
    name := "max-plus without one"
    contains := fun a => Dioid.maxPlus.contains a && a != rational 0 }

open ExtendedRational in
/-- One column, against which a vector is a single cell. -/
def ramp : Matrix ExtendedRational := .ofVectors #v[#v[rational 1], #v[rational 3]]

open ExtendedRational in
def fork : Matrix ExtendedRational :=
  .ofVectors #v[#v[rational 2, negInfinity], #v[rational 5, rational 1]]

open ExtendedRational in
def fromFive : Settings ExtendedRational := { initial := some (.singleton (rational 5)) }

open ExtendedRational in
def stalled : Solution ExtendedRational :=
  ⟨.singleton (rational 5), pair (7 / 2) (15 / 2), rational 1, 1, .cycle⟩

theorem solve_safe_punctured :
    punctured.zero ∈ punctured ∧ punctured.one ∉ punctured ∧
    fromFive.solve punctured ramp fork = .ok stalled ∧
    stalled.Fits punctured ramp fork fromFive.maxIterations := by
  have zero : punctured.zero ∈ punctured := by decide +kernel
  have returned : fromFive.solve punctured ramp fork = .ok stalled := by decide +kernel
  rcases solve_safe zero fromFive ramp fork with ⟨cause, -, refused⟩ | ⟨x, -, -, safe⟩
  · exact nomatch returned.symm.trans refused
  · exact ⟨zero, by decide +kernel, returned, safe.holds returned⟩

end TwoSided

end TropicalAlgebra
