import TropicalAlgebra.Proofs.TwoSided.Alike
import TropicalAlgebra.Proofs.TwoSided.Events

/-!
# Iterations in lockstep

Two alternations may be related leg by leg without a single relation that every half-step keeps, for
instance because the vectors of the two sides have different sizes. If the tests of the iteration do
not tell related vectors and gaps apart, then the first event is the same leg in both, and the runs
end alike.
-/

namespace TropicalAlgebra

namespace TwoSided

variable {α : Type} [Scalar α]

/-- Legs with vectors related by `V` and gaps related by `G`. -/
structure Leg.Alike (V : Matrix α → Matrix α → Prop) (G : α → α → Prop) (leg leg' : Leg α) : Prop
    extends HalfStep.Alike V G leg.toHalfStep leg'.toHalfStep where
  held : V leg.held leg'.held

/-- The legs of two alternations are related, and the tests of the iteration do not tell their
vectors and gaps apart. -/
structure Lockstep (V : Matrix α → Matrix α → Prop) (G : α → α → Prop)
    (E : Error α → Error α → Prop) (d e : Dioid α) (tolerance : α) (A B x A' B' x' : Matrix α) :
    Prop where
  start : V x x'
  legs : ∀ k, Outcome.Alike E (Leg.Alike V G) (alternation d A B x k) (alternation e A' B' x' k)
  closed : ∀ {g g'}, G g g' →
    Scalar.approxEq tolerance g d.one = Scalar.approxEq tolerance g' e.one
  seen : ∀ {v v' w w'}, V v v' → V w w' → v.approxEq tolerance w = v'.approxEq tolerance w'

variable {V : Matrix α → Matrix α → Prop} {G : α → α → Prop} {E : Error α → Error α → Prop}
  {d e : Dioid α} {tolerance : α} {A B x A' B' x' : Matrix α} {k : Nat}

omit [Scalar α] in
theorem Leg.Alike.flip {leg leg' : Leg α} (alike : leg.Alike V G leg') :
    leg'.Alike (fun v' v => V v v') (fun g' g => G g g') leg where
  vector := alike.vector
  gap := alike.gap
  held := alike.held

omit [Scalar α] in
theorem Leg.Alike.solution {leg leg' : Leg α} (alike : leg.Alike V G leg') (k : Nat)
    (termination : Termination) :
    (leg.solution k termination).Alike V G (leg'.solution k termination) where
  theta := by
    unfold Leg.solution Leg.theta
    split
    · exact alike.held
    · exact alike.vector
  sigma := by
    unfold Leg.solution Leg.sigma
    split
    · exact alike.vector
    · exact alike.held
  gap := alike.gap
  iterations := rfl
  termination := rfl

namespace Lockstep

variable (lock : Lockstep V G E d e tolerance A B x A' B' x')

include lock

theorem flip : Lockstep (fun v' v => V v v') (fun g' g => G g g') (fun c' c => E c c') e d tolerance
    A' B' x' A B x where
  start := lock.start
  legs k := (lock.legs k).flip.mono id Leg.Alike.flip
  closed gaps := (lock.closed gaps).symm
  seen left right := (lock.seen left right).symm

theorem vectorAt (k : Nat) : Outcome.Alike E V (vectorAt d A B x k) (vectorAt e A' B' x' k) := by
  cases k with
  | zero => exact .ok lock.start
  | succ k => exact (lock.legs k).bind fun legs => .ok legs.vector

theorem returns {v v' : Matrix α} (vectors : V v v') (returns : Returns d tolerance A B x k v) :
    Returns e tolerance A' B' x' k v' := by
  obtain ⟨j, before, side, u, found, close⟩ := returns
  obtain ⟨u', found', earlier⟩ := (lock.vectorAt j).exists_ok found
  exact ⟨j, before, side, u', found', (lock.seen earlier vectors).symm.trans close⟩

theorem returns_iff {v v' : Matrix α} (vectors : V v v') :
    Returns d tolerance A B x k v ↔ Returns e tolerance A' B' x' k v' :=
  ⟨lock.returns vectors, lock.flip.returns vectors⟩

theorem passes (passes : Passes d tolerance A B x k) : Passes e tolerance A' B' x' k := by
  obtain ⟨leg, reached, far, new⟩ := passes
  obtain ⟨leg', reached', legs⟩ := (lock.legs k).exists_ok reached
  exact ⟨leg', reached', (lock.closed legs.gap).symm.trans far,
    mt (lock.returns_iff legs.vector).mpr new⟩

/-- An event of one run is an event of the other, with a related outcome. -/
theorem event {rounds : Nat} {r : Outcome α (Solution α)}
    (event : Event d tolerance A B x rounds k r) :
    ∃ r', Event e tolerance A' B' x' rounds k r' ∧ Outcome.Alike E (Solution.Alike V G) r r' := by
  cases event with
  | fails failed =>
    obtain ⟨_, failed', causes⟩ := (lock.legs k).exists_error failed
    exact ⟨_, .fails failed', .error causes⟩
  | converges reached close =>
    obtain ⟨leg', reached', legs⟩ := (lock.legs k).exists_ok reached
    exact ⟨_, .converges reached' ((lock.closed legs.gap).symm.trans close),
      .ok (legs.solution k _)⟩
  | returns reached far returns =>
    obtain ⟨leg', reached', legs⟩ := (lock.legs k).exists_ok reached
    exact ⟨_, .returns reached' ((lock.closed legs.gap).symm.trans far)
      (lock.returns legs.vector returns), .ok (legs.solution k _)⟩
  | exhausts reached far new last =>
    obtain ⟨leg', reached', legs⟩ := (lock.legs k).exists_ok reached
    exact ⟨_, .exhausts reached' ((lock.closed legs.gap).symm.trans far)
      (mt (lock.returns_iff legs.vector).mpr new) last, .ok (legs.solution k _)⟩

/-- As far as the legs of one run pass, the other run has no event. -/
theorem le_of_allPass {rounds m : Nat} {r' : Outcome α (Solution α)} (high : k < 2 * rounds)
    (all : AllPass d tolerance A B x 0 k) (event' : Event e tolerance A' B' x' rounds m r') :
    k ≤ m := by
  by_contra later
  have before : m < k := by omega
  obtain ⟨last, -⟩ := (lock.passes (all m (Nat.zero_le m) before)).exhausts event'
  omega

/-- Runs in lockstep end alike. -/
theorem solve {s s' : Settings α} (accepted : s.check d A B = .ok x)
    (accepted' : s'.check e A' B' = .ok x') (rounds : s.maxIterations = s'.maxIterations)
    (close : s.tolerance = tolerance) (close' : s'.tolerance = tolerance) :
    Outcome.Alike E (Solution.Alike V G) (s.solve d A B) (s'.solve e A' B') := by
  obtain ⟨k, high, all, event⟩ := Settings.solve_event accepted
  obtain ⟨m, high', all', event'⟩ := Settings.solve_event accepted'
  rw [close] at all event
  rw [close', ← rounds] at event'
  rw [close'] at all'
  rw [← rounds] at high'
  obtain rfl : k = m :=
    Nat.le_antisymm (lock.le_of_allPass high all event') (lock.flip.le_of_allPass high' all' event)
  obtain ⟨r, event'', alike⟩ := lock.event event
  rwa [event'.unique event'']

end Lockstep

end TwoSided

end TropicalAlgebra
