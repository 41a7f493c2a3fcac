import TropicalAlgebra.Proofs.Closure.Convergence

/-!
# Where the closure and the sequence of its partial sums agree

The closure of an `n × n` matrix stops with the power `n - 1`, whatever comes after it, whereas the
sequence goes on until a sum repeats its predecessor. With rounded products the power `n` may still
add to the sum. The two agree exactly if it does not.
-/

namespace TropicalAlgebra

variable {α : Type} [Scalar α] {d : Dioid α} {terms : Set α}

/-! ### Stored powers and powers in a sequence -/

namespace Powers.Successive

variable {factors : Set α} {P : Powers α} {n k : Nat}

theorem factors_term (law : d.Distributive factors terms) (successive : P.Successive d)
    (base : P.base.Factors factors n) (h : k < P.terms.size) : P.terms[k].Factors factors n := by
  induction k with
  | zero =>
    have identity : P.terms[0] = Matrix.identityOfPos d P.base.rows P.base.rows_pos :=
      successive.identity
    rw [identity, ← base.rows]
    exact Matrix.factors_identity law
  | succ k ih =>
    cases k with
    | zero =>
      have first : P.terms[1] = P.base := by
        simpa [Array.getElem?_eq_getElem h] using successive.first
      rw [first]
      exact base
    | succ k => exact ((ih (by omega)).mul law base (successive.next k h)).1

theorem exists_sumUpTo (law : d.Distributive d.elements terms) (successive : P.Successive d)
    (base : P.base.Factors d.elements n) (h : k < P.terms.size) :
    ∃ T, P.sumUpTo d k = .ok T ∧ T.Factors d.elements n := by
  induction k with
  | zero => exact ⟨_, P.sumUpTo_zero, successive.factors_term law base h⟩
  | succ k ih =>
    obtain ⟨T, summed, square⟩ := ih (by omega)
    have power := successive.factors_term law base h
    obtain ⟨U, added⟩ := Matrix.Factors.exists_add law square power
    refine ⟨U, ?_, (square.add law power added).1⟩
    rw [P.sumUpTo_succ h, summed]
    exact added

end Powers.Successive

namespace Matrix

variable {M S : Matrix α}

/-- If there is a closure, then a sequence can form the powers up to the size of the matrix. They
differ from the stored ones in that the first is the identity times the base. -/
theorem exists_powerAndSum (law : d.Distributive d.elements terms)
    (alike : ∀ {a b}, a ∈ d → b ∈ terms → a == b → b ∈ d) (square : M.Factors d.elements M.rows)
    (closed : M.star d = .ok S) {k : Nat} (h : k ≤ M.rows) :
    ∃ Q T, M.powerAndSum d k = .ok (Q, T) := by
  obtain ⟨P, formed, -⟩ := bind_eq_ok_iff.mp closed
  obtain ⟨-, successive, base, size⟩ := Powers.successive_powers formed
  induction k with
  | zero => exact ⟨_, _, rfl⟩
  | succ k ih =>
    obtain ⟨Q, T, computed⟩ := ih (by omega)
    have sums : HasSum law M k Q T := .powerAndSum square computed
    have bound : k + 1 < P.terms.size := by omega
    obtain ⟨U, summed, -⟩ := successive.exists_sumUpTo law (base ▸ square) bound
    have stored : HasSum law M (k + 1) P.terms[k + 1] U :=
      .sumUpTo square successive base bound summed
    -- the next stored power is an element of the dioid in every cell and equal to the product, so
    -- that the product passes the check of its cells
    have product := sums.sums.isProduct (fun i j => square.entry_mem law i j) stored.sums
    obtain ⟨R, multiplied⟩ :=
      Factors.exists_mul law alike sums.power square stored.power product
    obtain ⟨V, added⟩ :=
      Factors.exists_add law sums.total (sums.power.mul law square multiplied).1
    refine ⟨R, V, bind_eq_ok_iff.mpr ⟨(Q, T), computed, ?_⟩⟩
    exact bind_eq_ok_iff.mpr ⟨R, multiplied, bind_eq_ok_iff.mpr ⟨V, added, rfl⟩⟩

/-- If there is a closure, then the next power can be added to it. -/
theorem exists_partialSum_rows (law : d.Distributive d.elements terms)
    (square : M.Factors d.elements M.rows) (closed : M.star d = .ok S) :
    ∃ T, M.partialSum d M.rows = .ok T := by
  obtain ⟨powers, formed, -⟩ := bind_eq_ok_iff.mp closed
  obtain ⟨-, successive, base, size⟩ := Powers.successive_powers formed
  obtain ⟨T, summed, -⟩ := successive.exists_sumUpTo law (k := M.rows) (base ▸ square) (by omega)
  have exponent : max 1 M.rows = M.rows := max_eq_right M.rows_pos
  exact ⟨T, by rw [partialSum, exponent, formed]; exact summed⟩

end Matrix

namespace ClosureSequence

variable {M S T : Matrix α}

/-- Draining a sequence from its beginning ends it, at the limit only if it has reached it. -/
theorem drain_ends {start : ClosureSequence α} (begun : M.closureSequence d = .ok start)
    (limit : Nat) :
    ∃ items s, (start.withLimit limit).drain = (items.getLast?, s) ∧ start.Reaches items s ∧
      ∃ ending, s.progress = .ended ending ∧ (ending = .limit → limit ≤ items.length) := by
  have running : ∀ ending, (start.withLimit limit).progress ≠ .ended ending := by
    intro ending ended
    have fresh : start.progress = .ended ending := ended
    rw [Matrix.closureSequence_fresh begun] at fresh
    simp at fresh
  obtain ⟨items, s, drained, run, bound, ending, ended, full⟩ :=
    drainUpTo_ends (.limit .start limit) running (Nat.lt_succ_self _)
  refine ⟨items, s, drained, run, ending, ended, fun reached => ?_⟩
  have reached := full reached
  rw [bound, (run.hasYielded begun).produced] at reached
  exact reached

namespace HasYielded

variable {items : List (Matrix α)} {s : ClosureSequence α} {k : Nat}

/-- No sum is handed out that repeats its predecessor, and none after it. -/
theorem length_le_of_repeats (has : HasYielded d M items s) {P Q U : Matrix α}
    (computed : M.powerAndSum d k = .ok (P, T)) (following : M.powerAndSum d (k + 1) = .ok (Q, U))
    (same : U.orderEq T = true) : items.length ≤ k + 1 := by
  by_contra longer
  have inside : k + 1 < items.length := by omega
  obtain ⟨P', item⟩ := has.item k (by omega)
  obtain ⟨Q', item'⟩ := has.item (k + 1) inside
  have differs := has.moves k inside
  rw [computed, Except.ok.injEq, Prod.mk.injEq] at item
  rw [following, Except.ok.injEq, Prod.mk.injEq] at item'
  rw [← item.2, ← item'.2, same] at differs
  exact Bool.noConfusion differs

/-- A sequence does not fail if the sum after its last item can be formed. -/
theorem converged_of_exists (has : HasYielded d M items s) {ending : Ending α}
    (ended : s.progress = .ended ending) (room : ending ≠ .limit)
    (exist : ∃ Q U, M.powerAndSum d items.length = .ok (Q, U)) : s.converged = true := by
  have explained := has.progress
  rw [ended] at explained
  cases ending with
  | converged => exact converged_iff.mpr ended
  | limit => exact absurd rfl room
  | failed cause =>
    obtain ⟨k, count, failed⟩ := explained
    obtain ⟨Q, U, computed⟩ := exist
    rw [count, failed] at computed
    simp at computed

end HasYielded

section Reaches

variable {start s : ClosureSequence α} {items : List (Matrix α)}

/-- If the closure has been handed out last, then the power after it adds nothing. -/
theorem Reaches.partialSum_beq (law : d.Distributive d.elements terms)
    (square : M.Factors d.elements M.rows) (begun : M.closureSequence d = .ok start)
    (run : start.Reaches items s) (converged : s.converged = true) (closed : M.star d = .ok S)
    {last : Matrix α} (found : items.getLast? = some last) (equal : (last == S) = true) :
    ∃ T, M.partialSum d M.rows = .ok T ∧ T == S := by
  obtain ⟨k, last', -, found', settles⟩ := run.settles law square begun converged
  obtain rfl : last' = last := Option.some.inj (found'.symm.trans found)
  obtain ⟨P, star⟩ := Matrix.HasSum.star law square closed
  obtain ⟨T, summed⟩ := Matrix.exists_partialSum_rows law square closed
  obtain ⟨Q, next⟩ := Matrix.HasSum.partialSum law square summed
  -- the next sum lies between the closure and the last item
  obtain ⟨_, sums⟩ := settles.sums
  rw [sums.total.beq_iff law star.total] at equal
  refine ⟨T, summed, next.beq_of_le star (fun i j => ?_) (star.le square next (by omega))⟩
  exact law.joins.le_trans (next.total.entry_term law i j) (sums.total.entry_term law i j)
    (star.total.entry_term law i j) (settles.le next i j) (equal i j).1

/-- If the power after the closure adds nothing, then no more sums are handed out than there are in
the closure. -/
theorem HasYielded.length_le_rows (law : d.Distributive d.elements terms)
    (alike : ∀ {a b}, a ∈ d → b ∈ terms → a == b → b ∈ d) (square : M.Factors d.elements M.rows)
    (has : HasYielded d M items s) (closed : M.star d = .ok S)
    (summed : M.partialSum d M.rows = .ok T) (equal : (T == S) = true) :
    items.length ≤ M.rows := by
  have positive := M.rows_pos
  obtain ⟨m, size⟩ : ∃ m, M.rows = m + 1 := ⟨M.rows - 1, by omega⟩
  obtain ⟨P, star⟩ := Matrix.HasSum.star law square closed
  obtain ⟨Q, next⟩ := Matrix.HasSum.partialSum law square summed
  rw [size] at next
  rw [size, Nat.add_sub_cancel] at star
  have settled : M.Settles law m S := ⟨square, ⟨P, star⟩, Q, T, next, equal⟩
  -- the sums of the sequence repeat at the same place as the stored ones
  obtain ⟨P₁, T₁, computed⟩ :=
    Matrix.exists_powerAndSum law alike square closed (k := m) (by omega)
  obtain ⟨Q₁, U₁, following⟩ :=
    Matrix.exists_powerAndSum law alike square closed (k := m + 1) (by omega)
  have first : Matrix.HasSum law M m P₁ T₁ := .powerAndSum square computed
  have second : Matrix.HasSum law M (m + 1) Q₁ U₁ := .powerAndSum square following
  have repeats := (second.total.orderEq_iff law first.total).mpr
    (settled.beq_of_hasSum first second)
  exact size ▸ has.length_le_of_repeats computed following repeats

end Reaches

/-- The last item of a drained sequence is the closure if and only if the power whose exponent is
the size of the matrix adds nothing to the closure. -/
theorem drain_beq_star_iff (law : d.Distributive d.elements terms)
    (alike : ∀ {a b}, a ∈ d → b ∈ terms → a == b → b ∈ d)
    (cells : ∀ a ∈ M.toList, a ∈ d) {start : ClosureSequence α}
    (begun : M.closureSequence d = .ok start) (closed : M.star d = .ok S) {limit : Nat}
    (room : M.rows < limit) :
    ((start.withLimit limit).drain.2.converged = true ∧
        ∃ last, (start.withLimit limit).drain.1 = some last ∧ last == S) ↔
      ∃ T, M.partialSum d M.rows = .ok T ∧ T == S := by
  have square : M.Factors d.elements M.rows := ⟨rfl, (M.rows_eq_cols begun).symm, cells⟩
  obtain ⟨items, s, drained, run, ending, ended, full⟩ := drain_ends begun limit
  have has := run.hasYielded begun
  rw [drained]
  constructor
  · rintro ⟨converged, last, found, equal⟩
    exact run.partialSum_beq law square begun converged closed found equal
  · rintro ⟨T, summed, equal⟩
    have count := has.length_le_rows law alike square closed summed equal
    -- there is room for more sums and they can be formed, so only convergence is left
    have converged : s.converged = true :=
      has.converged_of_exists ended (fun reached => by have := full reached; omega)
        (Matrix.exists_powerAndSum law alike square closed count)
    obtain ⟨k, last, length, found, settles⟩ := run.settles law square begun converged
    obtain ⟨P, star⟩ := Matrix.HasSum.star law square closed
    obtain ⟨Q, sums⟩ := settles.sums
    exact ⟨converged, last, found,
      sums.beq_of_le star (sums.le square star (by omega)) (settles.le star)⟩

/-- Over floating-point numbers, draining the sequence of a matrix that has a closure ends with the
closure if and only if the power whose exponent is the size of the matrix adds nothing to it. -/
theorem drain_agrees_iff (n : AlgebraName) {M S : Matrix Float}
    (cells : ∀ a ∈ M.toList, a ∈ (n.dioid : Dioid Float)) (closed : M.star n.dioid = .ok S)
    {limit : Nat} (room : M.rows < limit) :
    ∃ start, M.closureSequence n.dioid = .ok start ∧
      (((start.withLimit limit).drain.2.converged = true ∧
          ∃ last, (start.withLimit limit).drain.1 = some last ∧ last == S) ↔
        ∃ T, M.partialSum n.dioid M.rows = .ok T ∧ T == S) := by
  have square : M.isSquare = true := by
    obtain ⟨powers, formed, -⟩ := bind_eq_ok_iff.mp closed
    exact beq_iff_eq.mpr (Powers.successive_powers formed).1
  have begun : M.closureSequence n.dioid = .ok ⟨n.dioid, M, square, defaultLimit, 0, .fresh⟩ :=
    dif_pos square
  have alike {a b : Float} (ha : a ∈ (n.dioid : Dioid Float)) (_ : b ∈ n.terms) (same : a == b) :
      b ∈ (n.dioid : Dioid Float) := n.mem_congr ha same
  exact ⟨_, begun, drain_beq_star_iff n.distributive alike cells begun closed room⟩

end ClosureSequence

/-- Three vertices with integer weights, where the best cycle weighs nothing. -/
def triangle : Matrix Float :=
  .ofVectors #v[#v[Scalar.negInfinity, 1, 1], #v[Scalar.negInfinity, Scalar.negInfinity, 1],
    #v[-2, -1, Scalar.negInfinity]]

def triangleStar : Matrix Float :=
  .ofVectors #v[#v[0, 1, 2], #v[-1, 0, 1], #v[-2, -1, 0]]

theorem ClosureSequence.drain_agrees_iff_triangle :
    ∃ start, triangle.closureSequence .maxPlus = .ok start ∧
      (start.withLimit 5).drain.2.converged = true ∧
      ∃ last, (start.withLimit 5).drain.1 = some last ∧ last == triangleStar := by
  have cells : ∀ a ∈ triangle.toList, a ∈ (Dioid.maxPlus : Dioid Float) := by decide +kernel
  have closed : triangle.star .maxPlus = .ok triangleStar := by decide +kernel
  have room : triangle.rows < 5 := by decide
  have summed : triangle.partialSum .maxPlus 3 = .ok triangleStar := by decide +kernel
  obtain ⟨start, begun, agrees⟩ := drain_agrees_iff .maxPlus cells closed room
  exact ⟨start, begun, agrees.mpr ⟨triangleStar, summed, by decide +kernel⟩⟩

/-- The walk around the cycle, of as many edges as there are vertices, exceeds the closure. -/
theorem ClosureSequence.drain_exceeds_star_drift :
    drift.closureSequence .maxPlus = .ok driftSequence ∧
      (∀ a ∈ drift.toList, a ∈ (Dioid.maxPlus : Dioid Float)) ∧
      drift.star .maxPlus = .ok (driftSum 0.1) ∧ drift.rows + 1 < 10 ∧
      (driftSequence.withLimit 10).drain.2.converged = true ∧
      (driftSequence.withLimit 10).drain.1 = some (driftSum (0.1 + 0.2 - 0.2)) ∧
      (driftSum (0.1 + 0.2 - 0.2) == driftSum 0.1) = false :=
  ⟨rfl, by decide +kernel⟩

end TropicalAlgebra
