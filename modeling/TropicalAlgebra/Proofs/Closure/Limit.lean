import TropicalAlgebra.Closure.Star
import TropicalAlgebra.Proofs.Dioid.Exact
import TropicalAlgebra.Proofs.Matrix.PowersReading

/-!
# The closure as a limit

Over a lawful dioid the closure of a matrix is the sum of all its powers, although only finitely
many are added: it equals every longer sum. Where the closure is refused, the sums never settle,
provided that products can be cancelled.
-/

namespace TropicalAlgebra

variable {α : Type} [Scalar α]

/-- The sum of the powers of a matrix with the exponents `0, …, k`. -/
def Matrix.partialSum (d : Dioid α) (M : Matrix α) (k : Nat) : Outcome α (Matrix α) := do
  let P ← M.powers d (max 1 k) true
  P.sumUpTo d k

namespace Matrix

section Reading

variable {d : Dioid α} {β : Type} [CommSemiring β] {ν : d.Valuation β}
variable {n : Nat} {F : WeightMatrix n β}

theorem reads_partialSum {M : Matrix α} (read : M.Reads ν F) (k : Nat) :
    ∃ S, M.partialSum d k = .ok S ∧ S.Reads ν (F.closureUpTo k) := by
  obtain ⟨P, powers, readP, _⟩ := Powers.reads_powers read (k := max 1 k) (by omega) true
  obtain ⟨S, summed, readS⟩ := readP.sumUpTo (k := k) (by omega)
  refine ⟨S, ?_, readS⟩
  simpa [partialSum, powers, bind, Except.bind] using summed

/-- The values of the closed walks with at most `n` edges, summed up. -/
def cycleSum (F : WeightMatrix n β) : β := ∑ k ∈ Finset.range n, ∑ i, (F ^ (k + 1)) i i

/-- The power trace is the sum of the values of the closed walks. -/
theorem reads_traceSum {M : Matrix α} (read : M.Reads ν F) :
    ∃ trace, M.traceSum d = .ok trace ∧ trace ∈ d ∧ ν.value trace = cycleSum F := by
  have pos : n ≠ 0 := by
    have := M.rows_pos
    rw [read.rows] at this
    omega
  obtain ⟨P, powers, readP, _⟩ := Powers.reads_powers read pos false
  rw [← read.rows] at powers
  obtain ⟨member, value⟩ := readP.traceSum
  refine ⟨_, ?_, member, value⟩
  simp [traceSum, powers, bind, Except.bind, pure, Except.pure]

/-- What a closure returns: the sum of the powers up to `n - 1`, unless the power trace wins over
one. -/
theorem star_cases {M : Matrix α} (read : M.Reads ν F) :
    (¬ (cycleSum F ≠ 1 ∧ cycleSum F + 1 = cycleSum F) ∧
      ∃ S, M.star d = .ok S ∧ S.Reads ν (F.closureUpTo (n - 1))) ∨
    ((cycleSum F ≠ 1 ∧ cycleSum F + 1 = cycleSum F) ∧
      ∃ trace, M.star d = .error (.notWellDefined trace d.one)) := by
  have pos : n ≠ 0 := by
    have := M.rows_pos
    rw [read.rows] at this
    omega
  obtain ⟨P, powers, readP, _⟩ := Powers.reads_powers read pos true
  rw [← read.rows] at powers
  obtain ⟨member, trace⟩ := readP.traceSum
  have exceeds : d.dominates (P.traceSum d) d.one = true ↔
      cycleSum F ≠ 1 ∧ cycleSum F + 1 = cycleSum F := by
    rw [ν.dominates_iff member ν.one_mem, ν.value_one, trace, cycleSum]
  obtain ⟨S, summed, readS⟩ := readP.sumUpTo (k := n - 1) (by omega)
  rw [← read.rows] at summed
  rw [star, powers]
  by_cases diverges : d.dominates (P.traceSum d) d.one = true
  · right
    refine ⟨exceeds.mp diverges, P.traceSum d, ?_⟩
    simp [bind, Except.bind, require, diverges]
  · left
    refine ⟨mt exceeds.mpr diverges, S, ?_, readS⟩
    simpa [bind, Except.bind, require, diverges] using summed

end Reading

section Selecting

variable {d : Dioid α} {β : Type} [IdemCommSemiring β] {ν : d.Valuation β} {n : Nat}
variable {F : WeightMatrix n β}

theorem noGain_iff_cycleSum_le : F.NoGain ↔ cycleSum F ≤ 1 := by
  simp [WeightMatrix.NoGain, cycleSum, WeightMatrix.sum_le]

-- since a sum is one of its operands, a trace that does not win over one is at most one
theorem noGain_iff_not_exceeds (selects : ∀ x y : β, x + y = x ∨ x + y = y) :
    F.NoGain ↔ ¬ (cycleSum F ≠ 1 ∧ cycleSum F + 1 = cycleSum F) := by
  rw [noGain_iff_cycleSum_le]
  constructor
  · rintro bounded ⟨distinct, wins⟩
    exact distinct (wins.symm.trans (add_eq_right_iff_le.mpr bounded))
  · intro small
    rcases selects (cycleSum F) 1 with wins | loses
    · by_contra above
      exact small ⟨fun equal => above equal.le, wins⟩
    · exact add_eq_right_iff_le.mp loses

theorem reads_star (selects : ∀ x y : β, x + y = x ∨ x + y = y) {M S : Matrix α}
    (read : M.Reads ν F) (closed : M.star d = .ok S) :
    F.NoGain ∧ S.Reads ν (F.closureUpTo (n - 1)) := by
  rcases star_cases read with ⟨small, S', closed', readS⟩ | ⟨-, trace, refused⟩
  · obtain rfl : S' = S := Except.ok.inj (closed'.symm.trans closed)
    exact ⟨(noGain_iff_not_exceeds selects).mpr small, readS⟩
  · simp [refused] at closed

theorem exists_star (selects : ∀ x y : β, x + y = x ∨ x + y = y) {M : Matrix α}
    (read : M.Reads ν F) (noGain : F.NoGain) :
    ∃ S, M.star d = .ok S ∧ S.Reads ν (F.closureUpTo (n - 1)) := by
  rcases star_cases read with ⟨-, closed⟩ | ⟨exceeds, -⟩
  · exact closed
  · exact absurd exceeds ((noGain_iff_not_exceeds selects).mp noGain)

end Selecting

section Lawful

variable {d : Dioid α} (law : d.Lawful) {n : Nat} {F : WeightMatrix n law.Value}

private theorem noGain_of_not_exceeds
    (small : ¬ (cycleSum F ≠ 1 ∧ cycleSum F + 1 = cycleSum F)) : F.NoGain :=
  (noGain_iff_not_exceeds law.value_add_selects).mpr small

end Lawful

/-- A closure that exists equals every sum of at least `n` powers; one that does not exist leaves
sums of powers of which no two neighbours are equal. One of the two holds of every matrix. -/
theorem star_limit {d : Dioid α} (law : d.Lawful) (M : Matrix α) (square : M.isSquare)
    (elements : ∀ a ∈ M.toList, a ∈ d) :
    (∀ S, M.star d = .ok S →
      ∀ k, M.rows - 1 ≤ k → ∃ T, M.partialSum d k = .ok T ∧ T == S) ∧
    (∀ trace one, M.star d = .error (.notWellDefined trace one) → d.Cancellative →
      ∀ k, ∃ T T', M.partialSum d k = .ok T ∧ M.partialSum d (k + 1) = .ok T' ∧ ¬ T == T') ∧
    ((∃ S, M.star d = .ok S) ∨ ∃ trace, M.star d = .error (.notWellDefined trace d.one)) := by
  have same : M.cols = M.rows := (beq_iff_eq.mp square).symm
  obtain ⟨F, read⟩ : ∃ F : WeightMatrix M.rows law.Value, M.Reads law.valuation F :=
    exists_reads law.valuation elements rfl same
  rcases star_cases read with ⟨small, S, closed, readS⟩ | ⟨exceeds, trace, refused⟩
  · refine ⟨?_, fun _ _ refused => ?_, Or.inl ⟨S, closed⟩⟩
    · intro S' closed' k enough
      obtain rfl : S = S' := Except.ok.inj (closed.symm.trans closed')
      obtain ⟨T, summed, readT⟩ := reads_partialSum read k
      refine ⟨T, summed, (readT.beq_iff readS).mpr ?_⟩
      exact F.closureUpTo_eq (noGain_of_not_exceeds law small) enough
    · simp [closed] at refused
  · refine ⟨fun _ closed => ?_, ?_, Or.inr ⟨trace, refused⟩⟩
    · simp [refused] at closed
    · intro _ _ _ cancel k
      obtain ⟨T, summed, readT⟩ := reads_partialSum read k
      obtain ⟨T', summed', readT'⟩ := reads_partialSum read (k + 1)
      refine ⟨T, T', summed, summed', fun repeats => ?_⟩
      have settled := (readT.beq_iff readT').mp repeats
      -- no closed walk gains, so the trace cannot win over one
      have bounded : F.NoGain := fun l _ i => F.pow_diagonal_le_one settled
        (fun _ _ _ => law.value_cancel cancel) law.value_zero_ne_one (l + 1) i
      rw [noGain_iff_cycleSum_le] at bounded
      exact exceeds.1 (exceeds.2.symm.trans (add_eq_right_iff_le.mpr bounded))

/-- The graph with two vertices and one edge, of weight three. -/
def singleEdge : Matrix ExtendedRational :=
  ofFn 2 2 Nat.two_pos Nat.two_pos fun i j => if i < j then .rational 3 else .negInfinity

/-- The graph with one vertex and one edge, of weight one. -/
def selfLoop : Matrix ExtendedRational := singleton (.rational 1)

-- a single edge closes no walk; a loop makes closed walks of every length
theorem star_limit_singleEdge_selfLoop :
    (∃ S, singleEdge.star .maxPlus = .ok S ∧
      ∀ k, 1 ≤ k → ∃ T, singleEdge.partialSum .maxPlus k = .ok T ∧ T == S) ∧
    ∀ k, ∃ T T', selfLoop.partialSum .maxPlus k = .ok T ∧
      selfLoop.partialSum .maxPlus (k + 1) = .ok T' ∧ ¬ T == T' := by
  have law := Dioid.Chart.lawful .maxPlus
  constructor
  · obtain ⟨settles, -, -⟩ := star_limit law singleEdge rfl (by decide)
    exact ⟨_, rfl, settles _ rfl⟩
  · obtain ⟨-, diverges, -⟩ := star_limit law selfLoop rfl (by decide)
    exact diverges _ _ rfl Dioid.Chart.ofMaxPlus.cancellative

end Matrix

end TropicalAlgebra
