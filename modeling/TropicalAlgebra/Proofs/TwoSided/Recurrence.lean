import TropicalAlgebra.Proofs.Matrix.Products
import TropicalAlgebra.Proofs.TwoSided.Events

/-!
# Nothing is lost by stopping at a repeated vector

A half-step depends on the vector before it only. Where a vector occurs a second time on its side,
the half-steps since the first time are replayed for ever, and none of them was without a gap.
-/

namespace TropicalAlgebra

variable {α : Type} [Scalar α]

/-- Without a tolerance closeness is equality in the order, and zero and the elements of the dioid
are identical where the order does not tell them apart. -/
structure Dioid.Sharp (d : Dioid α) : Prop where
  close : ∀ a b : α, Scalar.approxEq (Scalar.ofInt 0) a b = Scalar.orderEq a b
  identical : ∀ {a b : α}, a = d.zero ∨ a ∈ d → b = d.zero ∨ b ∈ d → Scalar.orderEq a b = true →
    a = b

variable {d : Dioid α}

theorem Dioid.Sharp.lt_or_gt (sharp : d.Sharp) {a b : α}
    (far : Scalar.approxEq (Scalar.ofInt 0) a b = false) : a < b ∨ b < a := by
  rw [sharp.close, Scalar.orderEq, Bool.and_eq_false_iff] at far
  simpa using far

/-- Cells that count as equal without a tolerance are identical. -/
theorem Matrix.eq_of_approxEq (sharp : d.Sharp) {A B : Matrix α}
    (cellsA : ∀ a ∈ A.toList, a = d.zero ∨ a ∈ d) (cellsB : ∀ b ∈ B.toList, b = d.zero ∨ b ∈ d)
    (close : A.approxEq (Scalar.ofInt 0) B = true) : A = B := by
  obtain ⟨hr, hc, cells⟩ := (all₂_iff _).mp close
  refine ext_cell hr hc fun i j => ?_
  have equal := cells i j
  rw [sharp.close] at equal
  exact sharp.identical (cellsA _ (mem_toList.mpr ⟨_, _, rfl⟩))
    (cellsB _ (mem_toList.mpr ⟨_, _, rfl⟩)) equal

namespace TwoSided

variable {tolerance : α} {A B x : Matrix α} {k : Nat}

/-! ### Cells of the vectors -/

theorem halfStep_cells {lhs rhs v : Matrix α} {h : HalfStep α}
    (fitted : halfStep d lhs rhs v = .ok h) : ∀ a ∈ h.vector.toList, a = d.zero ∨ a ∈ d := by
  simp only [halfStep, bind_eq_ok_iff] at fitted
  obtain ⟨_, -, _, -, _, -, _, -, _, -, vector, centred, returned⟩ := fitted
  obtain rfl := Except.ok.inj returned
  obtain ⟨_, -, scaled⟩ := bind_eq_ok_iff.mp centred
  exact (Matrix.scale_eq_ok scaled).2.2

theorem vectorAt_cells {v : Matrix α} (start : ∀ a ∈ x.toList, a = d.zero ∨ a ∈ d)
    (reached : vectorAt d A B x k = .ok v) : ∀ a ∈ v.toList, a = d.zero ∨ a ∈ d := by
  induction k generalizing A B x with
  | zero =>
    obtain rfl := Except.ok.inj reached
    exact start
  | succ k ih =>
    obtain ⟨_, before, -⟩ := bind_eq_ok_iff.mp reached
    obtain ⟨h, fitted⟩ := exists_halfStep_eq_ok before
    rw [vectorAt_fitted fitted] at reached
    exact ih (halfStep_cells fitted) reached

theorem Settings.startingVector_cells {s : Settings α} (started : s.startingVector d A = .ok x) :
    ∀ a ∈ x.toList, a ∈ d := by
  unfold startingVector at started
  split at started
  next y initial =>
    obtain ⟨-, accepted⟩ := require_bind_eq_ok_iff.mp started
    obtain ⟨elements, rfl⟩ := (Matrix.checked_eq_ok_iff d).mp accepted
    exact elements
  next =>
    obtain ⟨one, filled⟩ := require_bind_eq_ok_iff.mp started
    rw [Matrix.ones_of_pos d A.cols_pos] at filled
    obtain rfl := Except.ok.inj filled
    intro a member
    obtain ⟨i, j, rfl⟩ := Matrix.mem_toList.mp member
    exact (Matrix.cell_ofFn i j).symm ▸ one

/-! ### Replaying -/

/-- After the same vector on the same side, the legs are the same. -/
theorem alternation_replays {i j : Nat} {v : Matrix α} (first : vectorAt d A B x i = .ok v)
    (again : vectorAt d A B x j = .ok v) (side : i % 2 = j % 2) (m : Nat) :
    alternation d A B x (j + m) = alternation d A B x (i + m) := by
  rw [alternation_add first, alternation_add again, continuation, continuation, side]

/-- Leg `k` exists and leaves a gap other than one. -/
def LeavesGap (d : Dioid α) (A B x : Matrix α) (k : Nat) : Prop :=
  ∃ leg, alternation d A B x k = .ok leg ∧ (leg.gap < d.one ∨ d.one < leg.gap)

/-- Where a vector occurs again, what holds of the legs before holds of all legs. -/
theorem leavesGap_of_repeats {i j : Nat} {v : Matrix α} (first : vectorAt d A B x i = .ok v)
    (again : vectorAt d A B x j = .ok v) (side : i % 2 = j % 2) (order : i < j)
    (before : ∀ k < j, LeavesGap d A B x k) (k : Nat) : LeavesGap d A B x k := by
  -- a leg from number `j` on is the one that lies a period of `j - i` before it
  induction k using Nat.strongRecOn with
  | ind k ih =>
    by_cases early : k < j
    · exact before k early
    · obtain ⟨m, rfl⟩ : ∃ m, k = j + m := ⟨k - j, by omega⟩
      obtain ⟨leg, reached, gap⟩ := ih (i + m) (by omega)
      exact ⟨leg, (alternation_replays first again side m).trans reached, gap⟩

/-- The vectors of a solution are vectors of the alternation, each on its side. -/
theorem exists_vectorAt_solution {leg : Leg α} (reached : alternation d A B x k = .ok leg) :
    (∃ i, i % 2 = 0 ∧ vectorAt d A B x i = .ok (leg.theta k)) ∧
      ∃ i, i % 2 = 1 ∧ vectorAt d A B x i = .ok (leg.sigma k) := by
  -- the leg holds vector `k` and fits vector `k + 1`
  by_cases even : k % 2 = 0
  · rw [Leg.theta, Leg.sigma, if_pos even, if_pos even]
    exact ⟨⟨k, even, vectorAt_held reached⟩, k + 1, by omega, vectorAt_succ reached⟩
  · rw [Leg.theta, Leg.sigma, if_neg even, if_neg even]
    exact ⟨⟨k + 1, by omega, vectorAt_succ reached⟩, k, by omega, vectorAt_held reached⟩

/-- If a run without tolerance stops at a repeated vector, then the half-steps that would follow
its solution, on either side, never fail and never close the gap. -/
theorem solve_cycle_recurs (sharp : d.Sharp) {s : Settings α} {sol : Solution α}
    (exact : s.tolerance = Scalar.ofInt 0) (returned : s.solve d A B = .ok sol)
    (cycle : sol.termination = .cycle) (k : Nat) :
    (∃ leg, alternation d A B sol.theta k = .ok leg ∧ (leg.gap < d.one ∨ d.one < leg.gap)) ∧
      ∃ leg, alternation d B A sol.sigma k = .ok leg ∧ (leg.gap < d.one ∨ d.one < leg.gap) := by
  obtain ⟨x, accepted, -⟩ := bind_eq_ok_iff.mp returned
  have start := Settings.startingVector_cells (Settings.check_eq_ok_iff_start.mp accepted).2.2.2.2.2
  obtain ⟨n, -, all, event⟩ := Settings.solve_event accepted
  rw [returned, exact] at event
  rw [exact] at all
  -- the event is that of a leg whose vector is identical to an earlier one
  cases event with
  | converges reached close => exact absurd cycle nofun
  | exhausts reached far new last => exact absurd cycle nofun
  | @returns leg reached far returns =>
    obtain ⟨i, earlier, side, u, first, equal⟩ := returns
    have cells {k : Nat} {v : Matrix α} (reached : vectorAt d A B x k = .ok v) :=
      vectorAt_cells (fun a member => Or.inr (start a member)) reached
    obtain rfl := Matrix.eq_of_approxEq sharp (cells first) (cells (vectorAt_succ reached)) equal
    have tested : ∀ j < n + 1, LeavesGap d A B x j := by
      intro j before
      by_cases last : j = n
      · exact last ▸ ⟨leg, reached, sharp.lt_or_gt far⟩
      · obtain ⟨leg', reached', far', -⟩ := all j (Nat.zero_le j) (by omega)
        exact ⟨leg', reached', sharp.lt_or_gt far'⟩
    -- all legs before the repeat were tested, so all legs after it leave a gap as well
    have gaps := leavesGap_of_repeats first (vectorAt_succ reached) side earlier tested
    obtain ⟨⟨a, even, theta⟩, b, odd, sigma⟩ := exists_vectorAt_solution reached
    have left := gaps (a + k)
    have right := gaps (b + k)
    rw [LeavesGap, alternation_add theta, continuation, if_pos even] at left
    rw [LeavesGap, alternation_add sigma, continuation, if_neg (by omega)] at right
    exact ⟨left, right⟩

/-! ### A run that returns to its first left vector -/

theorem sharp_extendedRational (d : Dioid ExtendedRational) : d.Sharp where
  close := ExtendedRational.approxEq_zero_eq_orderEq
  identical _ _ same := (ExtendedRational.orderEq_iff _ _).mp same

def returning : Solution ExtendedRational :=
  ⟨triple 4 6 4, pair (9 / 2) (11 / 2), .rational 1, 2, .cycle⟩

theorem solve_cycle_recurs_returning :
    patient.solve .maxPlus (ascent 3) (descent 1) = .ok returning ∧ ∃ leg,
      alternation .maxPlus (ascent 3) (descent 1) returning.theta 1000 = .ok leg ∧
        (leg.gap < Dioid.maxPlus.one ∨ Dioid.maxPlus.one < leg.gap) := by
  have returned : patient.solve .maxPlus (ascent 3) (descent 1) = .ok returning := by
    decide +kernel
  obtain ⟨left, -⟩ :=
    solve_cycle_recurs (sharp_extendedRational .maxPlus) rfl returned rfl 1000
  exact ⟨returned, left⟩

end TwoSided

end TropicalAlgebra
