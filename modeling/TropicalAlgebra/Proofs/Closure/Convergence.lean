import TropicalAlgebra.Proofs.Closure.Limit
import TropicalAlgebra.Proofs.Closure.Sequence
import TropicalAlgebra.Proofs.Dioid.Binary64
import TropicalAlgebra.Proofs.Matrix.Products
import TropicalAlgebra.Proofs.Matrix.Powers

/-!
# A repeated sum is the limit

A sequence of partial sums converges when a sum repeats its predecessor. That is final: all later
sums are equal to the last one handed out. Products need not be associative for this, so it
holds of rounded arithmetic as well.
-/

namespace TropicalAlgebra

variable {α : Type} [Scalar α] {d : Dioid α} {factors terms : Set α}

namespace Matrix

variable {M S T U P Q : Matrix α} {k m : Nat}

/-- After `k` steps the last power of `M` is `P` and the sum of all powers so far is `T`. -/
structure HasSum (law : d.Distributive factors terms) (M : Matrix α) (k : Nat)
    (P T : Matrix α) : Prop where
  power : P.Factors factors M.rows
  total : T.Factors factors M.rows
  sums : (law.sided M.rows).Sums ((identityOfPos d M.rows M.rows_pos).entry d) (M.entry d) k
    (P.entry d) (T.entry d)

variable {law : d.Distributive factors terms}

namespace HasSum

theorem start (M : Matrix α) :
    HasSum law M 0 (identityOfPos d M.rows M.rows_pos) (identityOfPos d M.rows M.rows_pos) where
  power := factors_identity law
  total := factors_identity law
  sums := .start fun i j => (factors_identity law).entry_mem law i j

theorem next_of_isProduct (before : HasSum law M k P T) (power : Q.Factors factors M.rows)
    (product : (law.sided M.rows).IsProduct (P.entry d) (M.entry d) (Q.entry d))
    (sum : T.add d Q = .ok U) : HasSum law M (k + 1) Q U := by
  obtain ⟨total, isSum⟩ := before.total.add law power sum
  exact ⟨power, total, before.sums.next (fun i j => power.entry_mem law i j)
    (fun i j => total.entry_mem law i j) product isSum⟩

theorem next (square : M.Factors factors M.rows) (before : HasSum law M k P T)
    (product : P.mul d M = .ok Q) (sum : T.add d Q = .ok U) : HasSum law M (k + 1) Q U := by
  obtain ⟨power, isProduct⟩ := before.power.mul law square product
  exact before.next_of_isProduct power isProduct sum

/-- The first power is the matrix itself, without any product. -/
theorem first (square : M.Factors factors M.rows)
    (sum : (identityOfPos d M.rows M.rows_pos).add d M = .ok T) : HasSum law M 1 M T :=
  (start M).next_of_isProduct square (isProduct_identity_sided law M.rows_pos square) sum

theorem powerAndSum (square : M.Factors factors M.rows)
    (computed : M.powerAndSum d k = .ok (P, T)) : HasSum law M k P T := by
  induction k generalizing P T with
  | zero =>
    obtain ⟨rfl, rfl⟩ := Prod.mk.inj (Except.ok.inj computed)
    exact start M
  | succ k ih =>
    rw [Matrix.powerAndSum] at computed
    obtain ⟨⟨P₀, T₀⟩, before, computed⟩ := bind_eq_ok_iff.mp computed
    obtain ⟨Q, product, computed⟩ := bind_eq_ok_iff.mp computed
    obtain ⟨U, sum, computed⟩ := bind_eq_ok_iff.mp computed
    obtain ⟨rfl, rfl⟩ := Prod.mk.inj (Except.ok.inj computed)
    exact (ih before).next square product sum

theorem sumUpTo (square : M.Factors factors M.rows) {powers : Powers α}
    (successive : powers.Successive d) (base : powers.base = M) (h : k < powers.terms.size)
    (computed : powers.sumUpTo d k = .ok T) : HasSum law M k powers.terms[k] T := by
  subst base
  induction k generalizing T with
  | zero =>
    obtain rfl := Except.ok.inj computed
    have identity : powers.terms[0] = identityOfPos d powers.base.rows powers.base.rows_pos :=
      successive.identity
    rw [successive.identity, identity]
    exact start powers.base
  | succ k ih =>
    rw [powers.sumUpTo_succ h] at computed
    obtain ⟨T₀, before, sum⟩ := bind_eq_ok_iff.mp computed
    have earlier := ih (by omega) before
    cases k with
    | zero =>
      obtain rfl := Except.ok.inj before
      have first : powers.terms[1] = powers.base := by
        simpa [Array.getElem?_eq_getElem h] using successive.first
      rw [first, successive.identity] at sum
      rw [first]
      exact .first square sum
    | succ k => exact earlier.next square (successive.next k h) sum

variable (law) in
theorem partialSum (square : M.Factors factors M.rows) (computed : M.partialSum d k = .ok T) :
    ∃ P, HasSum law M k P T := by
  obtain ⟨powers, formed, summed⟩ := bind_eq_ok_iff.mp computed
  obtain ⟨-, successive, base, size⟩ := Powers.successive_powers formed
  exact ⟨_, sumUpTo square successive base (by omega) summed⟩

variable (law) in
theorem star (square : M.Factors factors M.rows) (closed : M.star d = .ok S) :
    ∃ P, HasSum law M (M.rows - 1) P S := by
  obtain ⟨powers, formed, closed⟩ := bind_eq_ok_iff.mp closed
  obtain ⟨-, summed⟩ := require_bind_eq_ok_iff.mp closed
  obtain ⟨-, successive, base, size⟩ := Powers.successive_powers formed
  exact ⟨_, sumUpTo square successive base (by omega) summed⟩

theorem beq_of_le (first : HasSum law M k P T) (second : HasSum law M m Q U)
    (below : ∀ i j, d.le (T.entry d i j) (U.entry d i j))
    (above : ∀ i j, d.le (U.entry d i j) (T.entry d i j)) : (T == U) = true :=
  (first.total.beq_iff law second.total).mpr fun i j => ⟨below i j, above i j⟩

/-- Sums grow. -/
theorem le (square : M.Factors factors M.rows) (sums : HasSum law M k P T)
    (later : HasSum law M m Q U) (order : k ≤ m) (i j : Nat) :
    d.le (T.entry d i j) (U.entry d i j) := by
  have grows := sums.sums.total_le_total (fun i j => square.entry_mem law i j) later.sums order i j
  rwa [law.le_sided] at grows

end HasSum

/-- The sum of the powers with the exponents `0, …, k` is `T`, and so is the sum after it. -/
structure Settles (law : d.Distributive factors terms) (M : Matrix α) (k : Nat) (T : Matrix α) :
    Prop where
  square : M.Factors factors M.rows
  sums : ∃ P, HasSum law M k P T
  repeats : ∃ Q U, HasSum law M (k + 1) Q U ∧ (U == T) = true

namespace Settles

/-- No sum exceeds the one that is repeated. -/
theorem le (settles : Settles law M k T) (other : HasSum law M m Q U) (i j : Nat) :
    d.le (U.entry d i j) (T.entry d i j) := by
  obtain ⟨square, ⟨P, sums⟩, ⟨Q', U', next, same⟩⟩ := settles
  -- later sums are held back by the repetition, earlier ones by growth alone
  rcases Nat.le_total k m with later | earlier
  · rw [next.total.beq_iff law sums.total] at same
    have bounded := sums.sums.le_of_repeats (fun i j => square.entry_mem law i j) next.sums
      (fun i j => by rw [law.le_sided]; exact (same i j).1) other.sums later i j
    rw [law.le_sided] at bounded
    exact bounded.2
  · exact other.le square sums earlier i j

/-- All later sums equal the one that is repeated. -/
theorem beq (settles : Settles law M k T) (later : HasSum law M m Q U) (order : k ≤ m) :
    (U == T) = true := by
  obtain ⟨P, sums⟩ := settles.sums
  exact later.beq_of_le sums (settles.le later) (sums.le settles.square later order)

/-- The sums at these places repeat, whichever way they are formed. -/
theorem beq_of_hasSum (settles : Settles law M k T) (first : HasSum law M k P S)
    (second : HasSum law M (k + 1) Q U) : (U == S) = true := by
  obtain ⟨P', sums⟩ := settles.sums
  refine second.beq_of_le first (fun i j => ?_) (first.le settles.square second (Nat.le_succ k))
  exact law.joins.le_trans (second.total.entry_term law i j) (sums.total.entry_term law i j)
    (first.total.entry_term law i j) (settles.le second i j)
    (sums.le settles.square first le_rfl i j)

end Settles

end Matrix

/-- A sequence that has converged has handed out a sum that is repeated. -/
theorem ClosureSequence.Reaches.settles (law : d.Distributive factors terms) {M : Matrix α}
    (square : M.Factors factors M.rows) {start s : ClosureSequence α}
    (begun : M.closureSequence d = .ok start) {items : List (Matrix α)}
    (run : start.Reaches items s) (converged : s.converged = true) :
    ∃ k last, items.length = k + 1 ∧ items.getLast? = some last ∧ M.Settles law k last := by
  obtain ⟨k, P, last, Q, U, count, found, computed, following, same⟩ :=
    (run.hasYielded begun).of_converged converged
  have sums : Matrix.HasSum law M k P last := .powerAndSum square computed
  have next : Matrix.HasSum law M (k + 1) Q U := .powerAndSum square following
  have repeats : (U == last) = true := (next.total.orderEq_iff law sums.total).mp same
  exact ⟨k, last, count, found, square, ⟨P, sums⟩, Q, U, next, repeats⟩

/-- A sequence that has converged has handed out the limit: every later sum of powers equals the
last item, and so does the closure, if the sequence has not gone beyond the powers in it. -/
theorem ClosureSequence.converged_settles (law : d.Distributive factors terms) {M : Matrix α}
    (cells : ∀ a ∈ M.toList, a ∈ factors) {start s : ClosureSequence α}
    (begun : M.closureSequence d = .ok start) {items : List (Matrix α)}
    (run : start.Reaches items s) {k : Nat} (count : items.length = k + 1)
    (converged : s.converged = true) :
    ∃ last, items.getLast? = some last ∧
      (∀ m, k ≤ m → ∀ T, M.partialSum d m = .ok T → T == last) ∧
      (∀ m, k ≤ m → ∀ P T, M.powerAndSum d m = .ok (P, T) → T == last) ∧
      (∀ S, M.star d = .ok S → k ≤ M.rows - 1 → last == S) := by
  have square : M.Factors factors M.rows := ⟨rfl, (M.rows_eq_cols begun).symm, cells⟩
  obtain ⟨k', last, count', found, settles⟩ := run.settles law square begun converged
  obtain rfl : k' = k := by omega
  refine ⟨last, found, ?_, ?_, ?_⟩
  · intro m order T summed
    obtain ⟨P', later⟩ := Matrix.HasSum.partialSum law square summed
    exact settles.beq later order
  · intro m order P' T summed
    exact settles.beq (.powerAndSum square summed) order
  · intro S closed order
    obtain ⟨P, sums⟩ := settles.sums
    obtain ⟨P', later⟩ := Matrix.HasSum.star law square closed
    exact sums.beq_of_le later (sums.le square later order) (settles.le later)

/-- An edge that leads to a cycle of two edges, whose weights cancel out. After the edge the cycle
adds more than it takes away, since the sum in between is rounded up. -/
def drift : Matrix Float :=
  .ofVectors #v[#v[Scalar.negInfinity, 0.1, Scalar.negInfinity],
    #v[Scalar.negInfinity, Scalar.negInfinity, 0.2],
    #v[Scalar.negInfinity, -0.2, Scalar.negInfinity]]

/-- A sum of powers of `drift` in which the edge has got the weight `w`. -/
def driftSum (w : Float) : Matrix Float :=
  .ofVectors #v[#v[0, w, 0.1 + 0.2], #v[Scalar.negInfinity, 0, 0.2],
    #v[Scalar.negInfinity, -0.2, 0]]

/-- The sums of the powers of `drift`, from the beginning. -/
def driftSequence : ClosureSequence Float :=
  ⟨.maxPlus, drift, rfl, ClosureSequence.defaultLimit, 0, .fresh⟩

/-- The fifth call finds out that the fourth sum repeats, and so do all sums after it. -/
theorem ClosureSequence.converged_settles_drift :
    (driftSequence.calls 5).1.length = 3 + 1 ∧ (driftSequence.calls 5).2.converged = true ∧
      (driftSequence.calls 5).1.getLast? = some (driftSum (0.1 + 0.2 - 0.2)) ∧
      ∀ m, 3 ≤ m → ∀ T, drift.partialSum .maxPlus m = .ok T →
        T == driftSum (0.1 + 0.2 - 0.2) := by
  have cells : ∀ a ∈ drift.toList, a ∈ (Dioid.maxPlus : Dioid Float) := by decide +kernel
  have count : (driftSequence.calls 5).1.length = 3 + 1 := by decide +kernel
  have converged : (driftSequence.calls 5).2.converged = true := by decide +kernel
  have limit : (driftSequence.calls 5).1.getLast? = some (driftSum (0.1 + 0.2 - 0.2)) := by
    decide +kernel
  obtain ⟨last, found, sums, -, -⟩ :=
    converged_settles AlgebraName.maxPlus.distributive (M := drift) cells rfl
      (reaches_calls driftSequence 5) count converged
  obtain rfl := Option.some.inj (limit.symm.trans found)
  exact ⟨count, converged, limit, sums⟩

end TropicalAlgebra
