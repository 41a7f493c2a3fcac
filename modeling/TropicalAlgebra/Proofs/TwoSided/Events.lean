import TropicalAlgebra.Dioid.Tropical
import TropicalAlgebra.Proofs.Scalar.ExtendedRational
import TropicalAlgebra.Proofs.TwoSided.Run

/-!
# The first event of an iteration

Each half-step of an iteration may be an event: it fails, it leaves no gap, it returns to an earlier
vector of its side, or it uses up the rounds. What an iteration returns is what the first event of
the endless alternation says. The number of rounds matters only where no other event comes first.
-/

namespace TropicalAlgebra

namespace TwoSided

variable {α : Type} [Scalar α]

/-- The vector with number `k` when the sides take turns from `x` on. Even numbers are on the left,
odd ones on the right. -/
def vectorAt (d : Dioid α) (A B x : Matrix α) : Nat → Outcome α (Matrix α)
  | 0 => .ok x
  | k + 1 => do
      let leg ← alternation d A B x k
      pure leg.vector

/-- The alternation that goes on from vector `k`, which is `v`. -/
def continuation (d : Dioid α) (A B : Matrix α) (k : Nat) (v : Matrix α) :
    Nat → Outcome α (Leg α) :=
  if k % 2 = 0 then alternation d A B v else alternation d B A v

/-- What an iteration that ends with leg `k` returns. -/
def Leg.solution (leg : Leg α) (k : Nat) (termination : Termination) : Solution α :=
  ⟨leg.theta k, leg.sigma k, leg.gap, k / 2 + 1, termination⟩

section Definitions

variable (d : Dioid α) (tolerance : α) (A B x : Matrix α)

/-- The vector `v` with number `k` is close to an earlier one of its side. -/
def Returns (k : Nat) (v : Matrix α) : Prop :=
  ∃ j < k, j % 2 = k % 2 ∧ ∃ u, vectorAt d A B x j = .ok u ∧ u.approxEq tolerance v = true

/-- Leg `k` ends an iteration of so many rounds with this outcome. -/
inductive Event (rounds k : Nat) : Outcome α (Solution α) → Prop
  | fails {cause : Error α} (failed : alternation d A B x k = .error cause) :
      Event rounds k (.error cause)
  | converges {leg : Leg α} (reached : alternation d A B x k = .ok leg)
      (close : Scalar.approxEq tolerance leg.gap d.one = true) :
      Event rounds k (.ok (leg.solution k .converged))
  | returns {leg : Leg α} (reached : alternation d A B x k = .ok leg)
      (far : Scalar.approxEq tolerance leg.gap d.one = false)
      (returns : Returns d tolerance A B x (k + 1) leg.vector) :
      Event rounds k (.ok (leg.solution k .cycle))
  | exhausts {leg : Leg α} (reached : alternation d A B x k = .ok leg)
      (far : Scalar.approxEq tolerance leg.gap d.one = false)
      (new : ¬ Returns d tolerance A B x (k + 1) leg.vector) (last : k + 1 = 2 * rounds) :
      Event rounds k (.ok (leg.solution k .iterationLimit))

/-- Leg `k` gives no reason to stop. -/
def Passes (k : Nat) : Prop :=
  ∃ leg, alternation d A B x k = .ok leg ∧ Scalar.approxEq tolerance leg.gap d.one = false ∧
    ¬ Returns d tolerance A B x (k + 1) leg.vector

/-- The list holds the vectors before number `k` that are on its side. -/
def Earlier (k : Nat) (vs : List (Matrix α)) : Prop :=
  ∀ v, v ∈ vs ↔ ∃ j < k, j % 2 = k % 2 ∧ vectorAt d A B x j = .ok v

/-- The trail holds the vectors of the alternation from `x` up to its round. -/
structure Trail.Records (t : Trail α) : Prop where
  current : vectorAt d A B x (2 * t.rounds) = .ok t.x
  earlierX : Earlier d A B x (2 * t.rounds) t.earlierX
  earlierY : Earlier d A B x (2 * t.rounds + 1) t.earlierY

end Definitions

variable {d : Dioid α} {tolerance : α} {A B x : Matrix α} {k : Nat}

/-! ### Vectors -/

theorem vectorAt_succ {leg : Leg α} (reached : alternation d A B x k = .ok leg) :
    vectorAt d A B x (k + 1) = .ok leg.vector := by
  rw [vectorAt, reached]
  rfl

-- one half-step taken off the front leaves the alternation of the other side
theorem vectorAt_fitted {h : HalfStep α} (fitted : halfStep d A B x = .ok h) (k : Nat) :
    vectorAt d A B x (k + 1) = vectorAt d B A h.vector k := by
  cases k with
  | zero => exact vectorAt_succ (alternation_zero fitted)
  | succ k => rw [vectorAt, alternation_succ fitted, vectorAt]

theorem vectorAt_held {leg : Leg α} (reached : alternation d A B x k = .ok leg) :
    vectorAt d A B x k = .ok leg.held := by
  induction k generalizing A B x with
  | zero =>
    obtain ⟨h, fitted, last⟩ := bind_eq_ok_iff.mp reached
    obtain rfl := Except.ok.inj last
    rfl
  | succ k ih =>
    obtain ⟨h, fitted, rest⟩ := bind_eq_ok_iff.mp reached
    rw [vectorAt_fitted fitted]
    exact ih rest

theorem continuation_succ (k : Nat) (v : Matrix α) :
    continuation d A B (k + 1) v = continuation d B A k v := by
  unfold continuation
  split <;> split <;> first | rfl | omega

/-- The alternation can be cut at each of its vectors. -/
theorem alternation_add {v : Matrix α} (reached : vectorAt d A B x k = .ok v) (m : Nat) :
    alternation d A B x (k + m) = continuation d A B k v m := by
  -- without its first vector, the alternation of one side is that of the other
  induction k generalizing A B x with
  | zero =>
    obtain rfl := Except.ok.inj reached
    rw [Nat.zero_add]
    rfl
  | succ k ih =>
    obtain ⟨leg, before, -⟩ := bind_eq_ok_iff.mp reached
    obtain ⟨h, fitted⟩ := exists_halfStep_eq_ok before
    rw [vectorAt_fitted fitted] at reached
    rw [Nat.add_right_comm, alternation_succ fitted, ih reached, continuation_succ]

/-- A leg with an even number fits the right side to the vector before it. -/
theorem alternation_even {v : Matrix α} (reached : vectorAt d A B x k = .ok v)
    (even : k % 2 = 0) :
    alternation d A B x k = (halfStep d A B v).map fun h => ⟨h, v⟩ := by
  rw [← Nat.add_zero k, alternation_add reached, continuation, if_pos even, alternation]
  cases halfStep d A B v <;> rfl

/-- A leg with an odd number fits the left side. -/
theorem alternation_odd {v : Matrix α} (reached : vectorAt d A B x k = .ok v)
    (odd : k % 2 = 1) :
    alternation d A B x k = (halfStep d B A v).map fun h => ⟨h, v⟩ := by
  rw [← Nat.add_zero k, alternation_add reached, continuation, if_neg (by omega), alternation]
  cases halfStep d B A v <;> rfl

theorem Earlier.cons {vs : List (Matrix α)} {v : Matrix α} (earlier : Earlier d A B x k vs)
    (reached : vectorAt d A B x k = .ok v) : Earlier d A B x (k + 2) (v :: vs) := by
  intro u
  rw [List.mem_cons, earlier u]
  constructor
  · rintro (rfl | ⟨j, before, side, found⟩)
    · exact ⟨k, by omega, by omega, reached⟩
    · exact ⟨j, by omega, by omega, found⟩
  · rintro ⟨j, before, side, found⟩
    by_cases last : j = k
    · subst last
      exact Or.inl (Except.ok.inj (found.symm.trans reached))
    · exact Or.inr ⟨j, by omega, by omega, found⟩

theorem Earlier.any_iff {vs : List (Matrix α)} (earlier : Earlier d A B x k vs) (v : Matrix α) :
    (vs.any fun u => u.approxEq tolerance v) = true ↔ Returns d tolerance A B x k v := by
  rw [List.any_eq_true]
  constructor
  · rintro ⟨u, member, close⟩
    obtain ⟨j, before, side, found⟩ := (earlier u).mp member
    exact ⟨j, before, side, u, found, close⟩
  · rintro ⟨j, before, side, u, found, close⟩
    exact ⟨u, (earlier u).mpr ⟨j, before, side, found⟩, close⟩

theorem Trail.records_start (d : Dioid α) (A B x : Matrix α) :
    (Trail.mk x [] [] 0).Records d A B x where
  current := rfl
  earlierX v := by simp
  earlierY v := by
    -- vector `0` is on the left
    simp

theorem Trail.Records.follow {t : Trail α} {leg : Leg α} {y : Matrix α}
    (records : t.Records d A B x) (right : vectorAt d A B x (2 * t.rounds + 1) = .ok y)
    (left : alternation d A B x (2 * t.rounds + 1) = .ok leg) :
    (t.follow leg.vector y).Records d A B x where
  current := vectorAt_succ left
  earlierX := records.earlierX.cons records.current
  earlierY := records.earlierY.cons right

/-! ### Events -/

/-- The tests after a half-step see the event of its leg. -/
theorem event_of_stop? {leg : Leg α} {vs : List (Matrix α)} {termination : Termination}
    (reached : alternation d A B x k = .ok leg) (earlier : Earlier d A B x (k + 1) vs)
    (stops : stop? d tolerance leg.toHalfStep vs = some termination) (rounds : Nat) :
    Event d tolerance A B x rounds k (.ok (leg.solution k termination)) := by
  unfold stop? at stops
  split at stops
  next close =>
    obtain rfl := Option.some.inj stops
    exact .converges reached close
  next far =>
    split at stops
    next found =>
      obtain rfl := Option.some.inj stops
      exact .returns reached (Bool.not_eq_true _ ▸ far) ((earlier.any_iff _).mp found)
    next => simp at stops

theorem passes_of_stop? {leg : Leg α} {vs : List (Matrix α)}
    (reached : alternation d A B x k = .ok leg) (earlier : Earlier d A B x (k + 1) vs)
    (goes : stop? d tolerance leg.toHalfStep vs = none) : Passes d tolerance A B x k := by
  unfold stop? at goes
  split at goes
  next => simp at goes
  next far =>
    split at goes
    next => simp at goes
    next new => exact ⟨leg, reached, Bool.not_eq_true _ ▸ far, mt (earlier.any_iff _).mpr new⟩

/-- A half-step and the tests after it: `fit` is what the program computes for leg `k`. -/
theorem leg_cases {v : Matrix α} {vs : List (Matrix α)} {fit : Outcome α (HalfStep α)}
    (leg : alternation d A B x k = fit.map fun h => ⟨h, v⟩) (tolerance : α)
    (earlier : Earlier d A B x (k + 1) vs) :
    (∃ cause, fit = .error cause ∧ ∀ rounds, Event d tolerance A B x rounds k (.error cause)) ∨
    (∃ h termination, fit = .ok h ∧ stop? d tolerance h vs = some termination ∧
      ∀ rounds, Event d tolerance A B x rounds k (.ok (Leg.solution ⟨h, v⟩ k termination))) ∨
    ∃ h, fit = .ok h ∧ stop? d tolerance h vs = none ∧ alternation d A B x k = .ok ⟨h, v⟩ ∧
      Passes d tolerance A B x k := by
  cases fit with
  | error cause => exact Or.inl ⟨cause, rfl, fun _ => .fails leg⟩
  | ok h =>
    right
    cases stops : stop? d tolerance h vs with
    | some termination =>
      exact Or.inl ⟨h, termination, rfl, stops, event_of_stop? leg earlier stops⟩
    | none => exact Or.inr ⟨h, rfl, stops, leg, passes_of_stop? leg earlier stops⟩

omit [Scalar α] in
theorem Leg.solution_even (leg : Leg α) (r : Nat) (termination : Termination) :
    leg.solution (2 * r) termination = ⟨leg.held, leg.vector, leg.gap, r + 1, termination⟩ := by
  simp [solution, theta, sigma]

omit [Scalar α] in
theorem Leg.solution_odd (leg : Leg α) (r : Nat) (termination : Termination) :
    leg.solution (2 * r + 1) termination = ⟨leg.vector, leg.held, leg.gap, r + 1, termination⟩ := by
  have odd : (2 * r + 1) % 2 = 1 := by omega
  have half : (2 * r + 1) / 2 = r := by omega
  simp [solution, theta, sigma, odd, half]

/-- Every leg from number `i` up to number `k` passes. -/
def AllPass (d : Dioid α) (tolerance : α) (A B x : Matrix α) (i k : Nat) : Prop :=
  ∀ j, i ≤ j → j < k → Passes d tolerance A B x j

theorem AllPass.refl (i : Nat) : AllPass d tolerance A B x i i := fun _ low high => by omega

theorem AllPass.succ {i : Nat} (all : AllPass d tolerance A B x i k)
    (passes : Passes d tolerance A B x k) : AllPass d tolerance A B x i (k + 1) := by
  intro j low high
  by_cases last : j = k
  · exact last ▸ passes
  · exact all j low (by omega)

theorem AllPass.trans {i m : Nat} (first : AllPass d tolerance A B x i k)
    (second : AllPass d tolerance A B x k m) : AllPass d tolerance A B x i m := by
  intro j low high
  by_cases early : j < k
  · exact first j low early
  · exact second j (by omega) high

/-- A round ends the iteration with an event, or both of its legs pass. Then the next round follows
if there is one. -/
theorem iterate_step {t : Trail α} (records : t.Records d A B x) (tolerance : α) (spare : Nat) :
    (∃ k, 2 * t.rounds ≤ k ∧ k < 2 * (t.rounds + 1) ∧ AllPass d tolerance A B x (2 * t.rounds) k ∧
      ∀ rounds, Event d tolerance A B x rounds k (iterate d tolerance A B spare t)) ∨
    ∃ leg, alternation d A B x (2 * t.rounds + 1) = .ok leg ∧
      AllPass d tolerance A B x (2 * t.rounds) (2 * (t.rounds + 1)) ∧
      (t.follow leg.vector leg.held).Records d A B x ∧
      iterate d tolerance A B spare t = match spare with
        | 0 => .ok (leg.solution (2 * t.rounds + 1) .iterationLimit)
        | spare + 1 => iterate d tolerance A B spare (t.follow leg.vector leg.held) := by
  have right := alternation_even records.current (Nat.mul_mod_right 2 _)
  rcases leg_cases right tolerance records.earlierY with
    ⟨cause, fitted, event⟩ | ⟨y, termination, fitted, stops, event⟩ |
      ⟨y, fitted, goes, reached, passes⟩
  · refine Or.inl ⟨2 * t.rounds, Nat.le_refl _, by omega, .refl _, fun rounds => ?_⟩
    simpa [iterate, round, fitted, bind, Except.bind] using event rounds
  · refine Or.inl ⟨2 * t.rounds, Nat.le_refl _, by omega, .refl _, fun rounds => ?_⟩
    simpa [iterate, round, fitted, stops, bind, Except.bind, pure, Except.pure,
      Leg.solution_even] using event rounds
  · -- the vector that the round started from is an earlier one for the second leg
    have left := alternation_odd (vectorAt_succ reached) (by omega)
    rcases leg_cases left tolerance (records.earlierX.cons records.current) with
      ⟨cause, fitted', event⟩ | ⟨z, termination, fitted', stops, event⟩ |
        ⟨z, fitted', goes', reached', passes'⟩
    · refine Or.inl ⟨2 * t.rounds + 1, by omega, by omega, (AllPass.refl _).succ passes,
        fun rounds => ?_⟩
      simpa [iterate, round, fitted, goes, fitted', bind, Except.bind] using event rounds
    · refine Or.inl ⟨2 * t.rounds + 1, by omega, by omega, (AllPass.refl _).succ passes,
        fun rounds => ?_⟩
      simpa [iterate, round, fitted, goes, fitted', stops, bind, Except.bind, pure, Except.pure,
        Leg.solution_odd] using event rounds
    · refine Or.inr ⟨_, reached', ((AllPass.refl _).succ passes).succ passes',
        records.follow (vectorAt_succ reached) reached', ?_⟩
      have rounded : round d tolerance A B t = .ok (.completed z.vector y.vector z.gap) := by
        simp [round, fitted, goes, fitted', goes', bind, Except.bind, pure, Except.pure]
      rw [Leg.solution_odd, iterate, rounded]
      cases spare <;> rfl

/-- The outcome of an iteration is that of the first event from its round on. -/
theorem iterate_event {t : Trail α} (records : t.Records d A B x) (tolerance : α) (spare : Nat) :
    ∃ k < 2 * (t.rounds + spare + 1), AllPass d tolerance A B x (2 * t.rounds) k ∧
      Event d tolerance A B x (t.rounds + spare + 1) k (iterate d tolerance A B spare t) := by
  -- a round without an event leaves a trail that records two more vectors
  induction spare generalizing t with
  | zero =>
    rcases iterate_step records tolerance 0 with
      ⟨k, low, high, all, event⟩ | ⟨leg, reached, all, -, returned⟩
    · exact ⟨k, by omega, all, event _⟩
    · -- the second leg passes too, but it is the last one
      obtain ⟨leg', again, far, new⟩ := all (2 * t.rounds + 1) (by omega) (by omega)
      obtain rfl : leg = leg' := Except.ok.inj (reached.symm.trans again)
      refine ⟨2 * t.rounds + 1, by omega, fun j low high => all j low (by omega), ?_⟩
      rw [returned]
      exact .exhausts reached far new rfl
  | succ spare ih =>
    rcases iterate_step records tolerance (spare + 1) with
      ⟨k, low, high, all, event⟩ | ⟨leg, reached, all, records', returned⟩
    · exact ⟨k, by omega, all, event _⟩
    · obtain ⟨k, high, all', event⟩ := ih records'
      have same : t.rounds + (spare + 1) + 1 = t.rounds + 1 + spare + 1 := by omega
      rw [returned, same]
      exact ⟨k, high, all.trans all', event⟩

/-! ### The first event -/

/-- A leg that passes can only use up the rounds. -/
theorem Passes.exhausts {rounds : Nat} {r : Outcome α (Solution α)}
    (passes : Passes d tolerance A B x k) (event : Event d tolerance A B x rounds k r) :
    k + 1 = 2 * rounds ∧
      ∃ leg, alternation d A B x k = .ok leg ∧ r = .ok (leg.solution k .iterationLimit) := by
  obtain ⟨leg, reached, far, new⟩ := passes
  cases event with
  | fails failed => simp [reached] at failed
  | converges reached' close =>
    obtain rfl := Except.ok.inj (reached.symm.trans reached')
    simp [far] at close
  | returns reached' far' returns =>
    obtain rfl := Except.ok.inj (reached.symm.trans reached')
    exact absurd returns new
  | exhausts reached' far' new' last => exact ⟨last, _, reached', rfl⟩

/-- An event other than the last leg is one whatever the number of rounds. -/
theorem Event.of_ne_limit {rounds : Nat} {sol : Solution α}
    (event : Event d tolerance A B x rounds k (.ok sol))
    (early : sol.termination ≠ .iterationLimit) (rounds' : Nat) :
    ¬ Passes d tolerance A B x k ∧ Event d tolerance A B x rounds' k (.ok sol) := by
  constructor
  · intro passes
    obtain ⟨-, leg, -, same⟩ := passes.exhausts event
    obtain rfl := Except.ok.inj same
    exact early rfl
  · cases event with
    | converges reached close => exact .converges reached close
    | returns reached far returns => exact .returns reached far returns
    | exhausts => exact absurd rfl early

theorem Event.iterations {rounds : Nat} {sol : Solution α}
    (event : Event d tolerance A B x rounds k (.ok sol)) : sol.iterations = k / 2 + 1 := by
  cases event <;> rfl

theorem Event.unique {rounds : Nat} {r r' : Outcome α (Solution α)}
    (event : Event d tolerance A B x rounds k r) (event' : Event d tolerance A B x rounds k r') :
    r = r' := by
  cases event <;> cases event' <;> simp_all

namespace Settings

variable {s : Settings α}

theorem check_of_rounds (accepted : s.check d A B = .ok x) {rounds : Nat} (some : rounds ≠ 0) :
    { s with maxIterations := rounds }.check d A B = .ok x := by
  obtain ⟨rows, -, rest⟩ := check_eq_ok_iff_start.mp accepted
  exact check_eq_ok_iff_start.mpr ⟨rows, some, rest⟩

/-- A run on accepted operands returns what its first event says. -/
theorem solve_event (accepted : s.check d A B = .ok x) :
    ∃ k < 2 * s.maxIterations, AllPass d s.tolerance A B x 0 k ∧
      Event d s.tolerance A B x s.maxIterations k (s.solve d A B) := by
  obtain ⟨-, some, -⟩ := check_eq_ok_iff_start.mp accepted
  have iterated : s.solve d A B =
      iterate d s.tolerance A B (s.maxIterations - 1) ⟨x, [], [], 0⟩ := by
    rw [solve, accepted]
    rfl
  obtain ⟨k, high, all, event⟩ :=
    iterate_event (Trail.records_start d A B x) s.tolerance (s.maxIterations - 1)
  have rounds : 0 + (s.maxIterations - 1) + 1 = s.maxIterations := by omega
  rw [rounds] at high event
  exact ⟨k, high, all, iterated ▸ event⟩

end Settings

/-- A run returns the outcome of the first half-step that fails, leaves no gap, returns to an
earlier vector of its side or is the last one. If that is not the last one, then more rounds change
nothing, and fewer end the run with the vectors of the last of them. -/
theorem solve_first_event {s : Settings α} (accepted : s.check d A B = .ok x) :
    (∃ k < 2 * s.maxIterations, Event d s.tolerance A B x s.maxIterations k (s.solve d A B) ∧
      ∀ j < k, ∀ r, ¬ Event d s.tolerance A B x s.maxIterations j r) ∧
    ∀ sol, s.solve d A B = .ok sol → sol.termination ≠ .iterationLimit → ∀ rounds,
      (sol.iterations ≤ rounds → { s with maxIterations := rounds }.solve d A B = .ok sol) ∧
      (rounds ≠ 0 → rounds < sol.iterations → ∃ theta sigma gap,
        vectorAt d A B x (2 * rounds) = .ok theta ∧
        vectorAt d A B x (2 * rounds - 1) = .ok sigma ∧
        { s with maxIterations := rounds }.solve d A B =
          .ok ⟨theta, sigma, gap, rounds, .iterationLimit⟩) := by
  obtain ⟨k, high, all, event⟩ := Settings.solve_event accepted
  constructor
  · refine ⟨k, high, event, fun j before r event' => ?_⟩
    obtain ⟨last, -⟩ := (all j (Nat.zero_le j) before).exhausts event'
    omega
  · intro sol returned early rounds
    rw [returned] at event
    have count := event.iterations
    obtain ⟨stops, event'⟩ := event.of_ne_limit early rounds
    constructor
    · intro enough
      obtain ⟨m, high', all', other⟩ :=
        Settings.solve_event (Settings.check_of_rounds accepted (by omega : rounds ≠ 0))
      -- neither run passes the event of the other
      rcases Nat.lt_trichotomy m k with before | rfl | after
      · obtain ⟨last, -⟩ := (all m (Nat.zero_le m) before).exhausts other
        dsimp only at last
        omega
      · exact other.unique event'
      · exact absurd (all' k (Nat.zero_le k) after) stops
    · intro some fewer
      obtain ⟨m, high', all', other⟩ := Settings.solve_event (Settings.check_of_rounds accepted some)
      obtain ⟨last, leg, reached, limited⟩ :=
        (all m (Nat.zero_le m) (by dsimp only at high'; omega)).exhausts other
      dsimp only at last
      obtain ⟨r, rfl⟩ : ∃ r, rounds = r + 1 := ⟨rounds - 1, by omega⟩
      obtain rfl : m = 2 * r + 1 := by omega
      rw [Leg.solution_odd] at limited
      exact ⟨leg.vector, leg.held, leg.gap, vectorAt_succ reached, vectorAt_held reached, limited⟩

/-! ### A run of two rounds -/

open ExtendedRational in
def ascent (last : Rat) : Matrix ExtendedRational :=
  .ofVectors #v[#v[rational 3, negInfinity, rational 0], #v[rational 1, rational 1, rational 0],
    #v[negInfinity, rational 1, rational last]]

open ExtendedRational in
def descent (last : Rat) : Matrix ExtendedRational :=
  .ofVectors #v[#v[rational 1, rational 1], #v[rational 3, rational 2], #v[rational last, rational 1]]

open ExtendedRational in
def pair (a b : Rat) : Matrix ExtendedRational := .ofVectors #v[#v[rational a], #v[rational b]]

open ExtendedRational in
def triple (a b c : Rat) : Matrix ExtendedRational :=
  .ofVectors #v[#v[rational a], #v[rational b], #v[rational c]]

def steps : Matrix ExtendedRational := triple 5 3 1

def meeting : Solution ExtendedRational := ⟨triple 3 6 5, pair 4 5, .rational 0, 2, .converged⟩

def patient : Settings ExtendedRational := { initial := some steps }

theorem solve_first_event_ascent :
    patient.check .maxPlus (ascent 2) (descent 3) = .ok steps ∧
      patient.solve .maxPlus (ascent 2) (descent 3) = .ok meeting ∧
      { patient with maxIterations := 2 }.solve .maxPlus (ascent 2) (descent 3) = .ok meeting ∧
      ∃ theta sigma gap, vectorAt .maxPlus (ascent 2) (descent 3) steps 2 = .ok theta ∧
        vectorAt .maxPlus (ascent 2) (descent 3) steps 1 = .ok sigma ∧
        { patient with maxIterations := 1 }.solve .maxPlus (ascent 2) (descent 3) =
          .ok ⟨theta, sigma, gap, 1, .iterationLimit⟩ := by
  have accepted : patient.check .maxPlus (ascent 2) (descent 3) = .ok steps := by decide +kernel
  have returned : patient.solve .maxPlus (ascent 2) (descent 3) = .ok meeting := by decide +kernel
  obtain ⟨-, rounds⟩ := solve_first_event accepted
  obtain ⟨same, -⟩ := rounds meeting returned nofun 2
  obtain ⟨-, fewer⟩ := rounds meeting returned nofun 1
  exact ⟨accepted, returned, same (Nat.le_refl _), fewer nofun (by decide)⟩

end TwoSided

end TropicalAlgebra
