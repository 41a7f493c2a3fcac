import TropicalAlgebra.TwoSided.Solver

/-!
# The half-steps behind a solution

Without any test for an end, the half-steps of an iteration form one endless sequence in which the
two sides take turns. Whatever ends the iteration, its solution is one member of that sequence.
-/

namespace TropicalAlgebra

namespace TwoSided

variable {α : Type}

/-- A half-step with the vector that was held fixed. -/
structure Leg (α : Type) extends HalfStep α where
  held : Matrix α

namespace Leg

variable (leg : Leg α)

-- a leg with an even number holds the left vector fixed
def theta (k : Nat) : Matrix α := if k % 2 = 0 then leg.held else leg.vector

def sigma (k : Nat) : Matrix α := if k % 2 = 0 then leg.vector else leg.held

/-- The solution is that of an iteration which ends with leg `k`, after so many rounds before. -/
structure Ends (k rounds : Nat) (sol : Solution α) : Prop where
  theta : sol.theta = leg.theta k
  sigma : sol.sigma = leg.sigma k
  gap : sol.gap = leg.gap
  iterations : sol.iterations = rounds + k / 2 + 1

theorem theta_succ (k : Nat) : leg.theta (k + 1) = leg.sigma k := by
  unfold theta sigma
  split <;> split <;> first | rfl | omega

theorem sigma_succ (k : Nat) : leg.sigma (k + 1) = leg.theta k := by
  unfold theta sigma
  split <;> split <;> first | rfl | omega

variable {leg} in
theorem Ends.add_two {k rounds : Nat} {sol : Solution α} (ends : leg.Ends k (rounds + 1) sol) :
    leg.Ends (k + 2) rounds sol where
  theta := by rw [theta_succ, sigma_succ, ends.theta]
  sigma := by rw [sigma_succ, theta_succ, ends.sigma]
  gap := ends.gap
  iterations := by
    rw [ends.iterations]
    omega

end Leg

variable [Scalar α]

/-- The half-step with a given number when the sides take turns from `x` on. -/
def alternation (d : Dioid α) (A B x : Matrix α) : Nat → Outcome α (Leg α)
  | 0 => do
      let h ← halfStep d A B x
      pure ⟨h, x⟩
  | k + 1 => do
      let h ← halfStep d A B x
      alternation d B A h.vector k

variable {d : Dioid α} {tolerance : α} {A B x : Matrix α}

theorem alternation_zero {h : HalfStep α} (fitted : halfStep d A B x = .ok h) :
    alternation d A B x 0 = .ok ⟨h, x⟩ := by
  rw [alternation, fitted]
  rfl

theorem alternation_succ {h : HalfStep α} (fitted : halfStep d A B x = .ok h) (k : Nat) :
    alternation d A B x (k + 1) = alternation d B A h.vector k := by
  rw [alternation, fitted]
  rfl

theorem exists_halfStep_eq_ok {k : Nat} {leg : Leg α} (reached : alternation d A B x k = .ok leg) :
    ∃ h, halfStep d A B x = .ok h := by
  cases k with
  | zero =>
    obtain ⟨h, fitted, _⟩ := bind_eq_ok_iff.mp reached
    exact ⟨h, fitted⟩
  | succ k =>
    obtain ⟨h, fitted, _⟩ := bind_eq_ok_iff.mp reached
    exact ⟨h, fitted⟩

theorem stop?_eq_converged_iff {h : HalfStep α} {earlier : List (Matrix α)} :
    stop? d tolerance h earlier = some .converged ↔
      Scalar.approxEq tolerance h.gap d.one = true := by
  rw [stop?]
  -- the gap is looked at first, so a repeated vector never hides convergence
  split
  next small => simp [small]
  next large => split <;> simp [large]

/-- What one round does: it ends with one of its two half-steps, or it completes both. -/
theorem round_cases {t : Trail α} {r : Round α} (returned : round d tolerance A B t = .ok r) :
    (∃ k leg termination, k < 2 ∧ alternation d A B t.x k = .ok leg ∧
      r = .stopped (leg.theta k) (leg.sigma k) leg.gap termination ∧
      (termination = .converged → Scalar.approxEq tolerance leg.gap d.one = true)) ∨
    ∃ leg, alternation d A B t.x 1 = .ok leg ∧ r = .completed leg.vector leg.held leg.gap ∧
      ∀ k, alternation d A B t.x (k + 2) = alternation d A B leg.vector k := by
  -- leg `0` fits the right side; the round may end with it
  obtain ⟨right, fitted, rest⟩ := bind_eq_ok_iff.mp returned
  split at rest
  next termination stops =>
    left
    refine ⟨0, _, termination, Nat.two_pos, alternation_zero fitted, (Except.ok.inj rest).symm, ?_⟩
    rintro rfl
    exact stop?_eq_converged_iff.mp stops
  next =>
    -- otherwise leg `1` fits the left side to it
    obtain ⟨left, fitted', rest⟩ := bind_eq_ok_iff.mp rest
    have second := (alternation_succ fitted 0).trans (alternation_zero fitted')
    split at rest
    next termination stops =>
      left
      refine ⟨1, _, termination, Nat.one_lt_two, second, (Except.ok.inj rest).symm, ?_⟩
      rintro rfl
      exact stop?_eq_converged_iff.mp stops
    next =>
      right
      refine ⟨_, second, (Except.ok.inj rest).symm, fun k => ?_⟩
      rw [alternation_succ fitted, alternation_succ fitted']

/-- `sol` is what leg `k` of the alternation from `t` ends with. -/
def Solution.Follows (sol : Solution α) (d : Dioid α) (tolerance : α) (A B : Matrix α)
    (t : Trail α) (k : Nat) : Prop :=
  ∃ leg, alternation d A B t.x k = .ok leg ∧ leg.Ends k t.rounds sol ∧
    (sol.termination = .converged → Scalar.approxEq tolerance leg.gap d.one = true)

theorem iterate_cases {spare : Nat} {t : Trail α} {sol : Solution α}
    (returned : iterate d tolerance A B spare t = .ok sol) :
    (∃ k < 2, sol.Follows d tolerance A B t k) ∨
    ∃ fewer x y, spare = fewer + 1 ∧ iterate d tolerance A B fewer (t.follow x y) = .ok sol ∧
      ∀ k, alternation d A B t.x (k + 2) = alternation d A B x k := by
  rw [iterate] at returned
  obtain ⟨r, rounded, rest⟩ := bind_eq_ok_iff.mp returned
  rcases round_cases rounded with
    ⟨k, leg, termination, early, reached, rfl, close⟩ | ⟨leg, reached, rfl, later⟩
  · left
    obtain rfl := Except.ok.inj rest
    -- both half-steps of a round count as one iteration
    have iterations : t.rounds + 1 = t.rounds + k / 2 + 1 := by omega
    exact ⟨k, early, leg, reached, ⟨rfl, rfl, rfl, iterations⟩, close⟩
  · cases spare with
    | zero =>
      left
      obtain rfl := Except.ok.inj rest
      exact ⟨1, Nat.one_lt_two, leg, reached, ⟨rfl, rfl, rfl, rfl⟩, nofun⟩
    | succ fewer => exact Or.inr ⟨fewer, leg.vector, leg.held, rfl, rest, later⟩

/-- Whatever ends an iteration, its solution is a leg of the alternation. -/
theorem iterate_follows {spare : Nat} {t : Trail α} {sol : Solution α}
    (returned : iterate d tolerance A B spare t = .ok sol) :
    ∃ k < 2 * (spare + 1), sol.Follows d tolerance A B t k := by
  -- every round that is completed moves the start of the alternation by two legs
  induction spare generalizing t with
  | zero =>
    rcases iterate_cases returned with ⟨k, early, follows⟩ | ⟨fewer, _, _, impossible, _⟩
    · exact ⟨k, early, follows⟩
    · omega
  | succ spare ih =>
    rcases iterate_cases returned with ⟨k, early, follows⟩ | ⟨fewer, x, y, same, rest, later⟩
    · exact ⟨k, by omega, follows⟩
    · obtain rfl := Nat.succ.inj same
      obtain ⟨k, early, leg, reached, ends, close⟩ := ih rest
      exact ⟨k + 2, by omega, leg, (later k).trans reached, ends.add_two, close⟩

theorem exists_round_eq_ok (tolerance : α) (t : Trail α)
    (legs : ∀ k, ∃ leg, alternation d A B t.x k = .ok leg) :
    ∃ r, round d tolerance A B t = .ok r := by
  obtain ⟨_, reached⟩ := legs 0
  obtain ⟨right, fitted⟩ := exists_halfStep_eq_ok reached
  obtain ⟨_, reached'⟩ := legs 1
  rw [alternation_succ fitted] at reached'
  obtain ⟨left, fitted'⟩ := exists_halfStep_eq_ok reached'
  simp only [round, fitted, fitted', bind, Except.bind]
  split
  · exact ⟨_, rfl⟩
  · split <;> exact ⟨_, rfl⟩

/-- An iteration ends with a solution if no half-step of the alternation fails. -/
theorem exists_iterate_eq_ok (tolerance : α) (spare : Nat) (t : Trail α)
    (legs : ∀ k, ∃ leg, alternation d A B t.x k = .ok leg) :
    ∃ sol, iterate d tolerance A B spare t = .ok sol := by
  -- the legs that a completed round leaves over are those of the next trail
  induction spare generalizing t with
  | zero =>
    obtain ⟨r, rounded⟩ := exists_round_eq_ok tolerance t legs
    rw [iterate, rounded]
    cases r <;> exact ⟨_, rfl⟩
  | succ spare ih =>
    obtain ⟨r, rounded⟩ := exists_round_eq_ok tolerance t legs
    rw [iterate, rounded]
    rcases round_cases rounded with ⟨_, _, _, _, _, rfl, _⟩ | ⟨leg, _, rfl, later⟩
    · exact ⟨_, rfl⟩
    · apply ih
      intro k
      obtain ⟨leg', reached⟩ := legs (k + 2)
      exact ⟨leg', (later k).symm.trans reached⟩

/-- Matrices and a vector of elements in the shapes that an iteration needs. -/
structure Operands (d : Dioid α) (A B x : Matrix α) : Prop where
  rows : A.rows = B.rows
  shape : x.shape = ⟨A.cols, 1⟩
  left : ∀ a ∈ A.toList, a ∈ d
  right : ∀ a ∈ B.toList, a ∈ d
  start : ∀ a ∈ x.toList, a ∈ d

namespace Settings

variable {s : Settings α}

theorem check_eq_ok_iff_start :
    s.check d A B = .ok x ↔ A.rows = B.rows ∧ s.maxIterations ≠ 0 ∧ s.acceptsTolerance = true ∧
      (∀ a ∈ A.toList, a ∈ d) ∧ (∀ a ∈ B.toList, a ∈ d) ∧ s.startingVector d A = .ok x := by
  simp only [check, require_bind_eq_ok_iff, Matrix.validate_bind_eq_ok_iff]

theorem check_eq_ok_iff {y : Matrix α} (initial : s.initial = some x) :
    s.check d A B = .ok y ↔
      Operands d A B x ∧ s.maxIterations ≠ 0 ∧ s.acceptsTolerance = true ∧ x = y := by
  simp only [check_eq_ok_iff_start, startingVector, initial, require_bind_eq_ok_iff,
    Matrix.checked_eq_ok_iff]
  constructor
  · rintro ⟨rows, rounds, accepts, left, right, shape, start, rfl⟩
    exact ⟨⟨rows, shape, left, right, start⟩, rounds, accepts, rfl⟩
  · rintro ⟨⟨rows, shape, left, right, start⟩, rounds, accepts, rfl⟩
    exact ⟨rows, rounds, accepts, left, right, shape, start, rfl⟩

/-- A run that is given a starting vector checks its operands and then iterates. -/
theorem solve_eq_ok_iff {sol : Solution α} (initial : s.initial = some x) :
    s.solve d A B = .ok sol ↔
      (Operands d A B x ∧ s.maxIterations ≠ 0 ∧ s.acceptsTolerance = true) ∧
        iterate d s.tolerance A B (s.maxIterations - 1) ⟨x, [], [], 0⟩ = .ok sol := by
  simp only [solve, bind_eq_ok_iff, check_eq_ok_iff initial]
  constructor
  · rintro ⟨_, ⟨operands, rounds, accepts, rfl⟩, returned⟩
    exact ⟨⟨operands, rounds, accepts⟩, returned⟩
  · rintro ⟨⟨operands, rounds, accepts⟩, returned⟩
    exact ⟨x, ⟨operands, rounds, accepts, rfl⟩, returned⟩

end Settings

end TwoSided

end TropicalAlgebra
