import TropicalAlgebra.Closure.Trace
import TropicalAlgebra.Proofs.Matrix.Reading
import TropicalAlgebra.Proofs.Walks

/-!
# Reading the powers of a matrix

The stored powers of a square matrix read the powers of the matrix that it reads, and their sums
and traces read sums and traces.
-/

namespace TropicalAlgebra

theorem Matrix.reads_one {α : Type} [Scalar α] {d : Dioid α} {β : Type} [CommSemiring β]
    {ν : d.Valuation β} (size : Nat) (pos : 0 < size) :
    (identityOfPos d size pos).Reads ν (1 : WeightMatrix size β) := by
  have one_eq : (1 : WeightMatrix size β) = fun i j => if i = j then 1 else 0 := by
    funext i j
    exact Matrix.one_apply
  rw [one_eq]
  exact reads_identity size pos

namespace Powers

variable {α : Type} [Scalar α] {d : Dioid α} {β : Type} [CommSemiring β] (ν : d.Valuation β)
variable {n : Nat}

/-- The powers of `F` with the exponents `0, …, highest`. -/
structure Reads (P : Powers α) (F : WeightMatrix n β) (highest : Nat) : Prop where
  base : P.base.Reads ν F
  size : P.terms.size = highest + 1
  term : ∀ k (h : k < P.terms.size), P.terms[k].Reads ν (F ^ k)

variable {ν} {F : WeightMatrix n β} {highest : Nat}

theorem reads_first {M : Matrix α} (read : M.Reads ν F) (withIdentity : Bool) :
    (first d M withIdentity).Reads ν F 1 where
  base := read
  size := rfl
  term k h := by
    obtain rfl | rfl : k = 0 ∨ k = 1 := by
      have bound : k < 2 := h
      omega
    · obtain ⟨rfl, _⟩ := read
      rw [pow_zero]
      exact Matrix.reads_one M.rows M.rows_pos
    · rw [pow_one]
      exact read

theorem Reads.step {P : Powers α} (read : P.Reads ν F highest) :
    ∃ Q, P.step d = .ok Q ∧ Q.Reads ν F (highest + 1) ∧ Q.withIdentity = P.withIdentity := by
  -- the next power is a product of the last one, so the reading of the product carries over
  have top : P.top.Reads ν (F ^ highest) := by
    have last := read.term (P.terms.size - 1) (by have := P.two_le_size; omega)
    have exponent : P.terms.size - 1 = highest := by
      have := read.size
      omega
    exact (congrArg (F ^ ·) exponent) ▸ last
  obtain ⟨next, product, readNext⟩ := top.mul read.base
  refine ⟨P.push next, by simp [Powers.step, product, bind, Except.bind, pure, Except.pure],
    ⟨read.base, by simp [push, read.size], ?_⟩, rfl⟩
  intro k h
  -- the earlier terms stay where they are
  by_cases old : k < P.terms.size
  · have same : (P.push next).terms[k] = P.terms[k] := Array.getElem_push_lt old
    rw [same]
    exact read.term k old
  · obtain rfl : k = highest + 1 := by
      have bound : k < P.terms.size + 1 := by simpa [push] using h
      have := read.size
      omega
    have new : (P.push next).terms[highest + 1] = next := by simp [push, ← read.size]
    rw [new, pow_succ]
    exact readNext

theorem Reads.advance {P : Powers α} (read : P.Reads ν F highest) (count : Nat) :
    ∃ Q, P.advance d count = .ok Q ∧ Q.Reads ν F (highest + count) ∧
      Q.withIdentity = P.withIdentity := by
  -- one step off the front; the sequence and its highest exponent grow
  induction count generalizing P highest with
  | zero => exact ⟨P, rfl, read, rfl⟩
  | succ count ih =>
    obtain ⟨Q, stepped, readQ, flagQ⟩ := read.step
    obtain ⟨R, advanced, readR, flagR⟩ := ih readQ
    refine ⟨R, ?_, ?_, flagR.trans flagQ⟩
    · simpa [Powers.advance, stepped, bind, Except.bind] using advanced
    · rwa [show highest + (count + 1) = highest + 1 + count by omega]

theorem reads_powers {M : Matrix α} (read : M.Reads ν F) {k : Nat} (pos : k ≠ 0)
    (withIdentity : Bool) :
    ∃ P, M.powers d k withIdentity = .ok P ∧ P.Reads ν F k ∧ P.withIdentity = withIdentity := by
  have square : M.requireSquare = .ok () := by
    rw [Matrix.requireSquare, require_eq_ok_iff, Matrix.isSquare, beq_iff_eq, read.rows, read.cols]
  obtain ⟨P, advanced, readP, flag⟩ := (reads_first read withIdentity).advance (k - 1)
  refine ⟨P, ?_, by rwa [show 1 + (k - 1) = k by omega] at readP, flag⟩
  rw [Matrix.powers, square, require_eq_ok_iff.mpr pos]
  exact advanced

/-! ### Sums of powers -/

theorem sumUpTo_zero (P : Powers α) : P.sumUpTo d 0 = .ok P.identity := rfl

theorem sumUpTo_succ (P : Powers α) {k : Nat} (h : k + 1 < P.terms.size) :
    P.sumUpTo d (k + 1) = P.sumUpTo d k >>= fun total => total.add d P.terms[k + 1] := by
  -- the fold starts from the identity and takes the positive powers in turn
  have length : k < P.positive.length := by simp [positive]; omega
  have entry : P.positive[k] = P.terms[k + 1] := by simp [positive]
  rw [sumUpTo, List.take_succ_eq_append_getElem length, List.foldlM_append, entry]
  congr 1
  funext total
  simp

theorem Reads.sumUpTo {P : Powers α} (read : P.Reads ν F highest) {k : Nat} (h : k ≤ highest) :
    ∃ S, P.sumUpTo d k = .ok S ∧ S.Reads ν (F.closureUpTo k) := by
  induction k with
  | zero =>
    have first := read.term 0 (by have := read.size; omega)
    refine ⟨P.identity, P.sumUpTo_zero, ?_⟩
    rw [F.closureUpTo_zero, ← pow_zero F]
    exact first
  | succ k ih =>
    have bound : k + 1 < P.terms.size := by
      have := read.size
      omega
    obtain ⟨S, summed, readS⟩ := ih (by omega)
    obtain ⟨T, added, readT⟩ := readS.add (read.term (k + 1) bound)
    refine ⟨T, ?_, ?_⟩
    · rw [P.sumUpTo_succ bound, summed]
      exact added
    · rw [F.closureUpTo_succ]
      exact readT

end Powers

/-! ### Traces -/

namespace Matrix

variable {α : Type} [Scalar α] {d : Dioid α} {β : Type} [CommSemiring β] {ν : d.Valuation β}
variable {n : Nat} {F : WeightMatrix n β}

theorem Reads.diagonalSum {M : Matrix α} (read : M.Reads ν F) :
    M.diagonalSum d ∈ d ∧ ν.value (M.diagonalSum d) = ∑ i, F i i := by
  have size : min M.rows M.cols = n := by rw [read.rows, read.cols, Nat.min_self]
  have members : ∀ a ∈ M.diagonal, a ∈ d := by
    intro a ha
    obtain ⟨i, rfl⟩ := (List.mem_ofFn' _ _).mp ha
    exact read.mem _ _
  refine ⟨ν.sum_mem members, ?_⟩
  rw [Matrix.diagonalSum, ν.value_sum members, ← List.sum_ofFn]
  congr 1
  apply List.ext_getElem
  · simp [diagonal, size]
  · intro i hi hi'
    have bound : i < n := by simpa using hi'
    have entry := read.value ⟨i, bound⟩ ⟨i, bound⟩
    simp only [Fin.cast_mk] at entry
    simp [diagonal, entry]

end Matrix

namespace Powers

variable {α : Type} [Scalar α] {d : Dioid α} {β : Type} [CommSemiring β] {ν : d.Valuation β}
variable {n : Nat} {F : WeightMatrix n β} {highest : Nat}

theorem Reads.length_traces {P : Powers α} (read : P.Reads ν F highest) :
    (P.traces d).length = highest := by
  simp [traces, positive, read.size]

theorem Reads.traces {P : Powers α} (read : P.Reads ν F highest) (k : Nat)
    (h : k < (P.traces d).length) :
    (P.traces d)[k] ∈ d ∧ ν.value (P.traces d)[k] = ∑ i, (F ^ (k + 1)) i i := by
  have bound : k + 1 < P.terms.size := by
    rw [read.length_traces] at h
    rw [read.size]
    omega
  have entry : (P.traces d)[k] = P.terms[k + 1].diagonalSum d := by simp [Powers.traces, positive]
  rw [entry]
  exact (read.term (k + 1) bound).diagonalSum

theorem Reads.mem_of_mem_traces {P : Powers α} (read : P.Reads ν F highest) :
    ∀ a ∈ P.traces d, a ∈ d := by
  intro a ha
  obtain ⟨k, hk, rfl⟩ := List.mem_iff_getElem.mp ha
  exact (read.traces k hk).1

theorem Reads.traceSum {P : Powers α} (read : P.Reads ν F highest) :
    P.traceSum d ∈ d ∧
    ν.value (P.traceSum d) = ∑ k ∈ Finset.range highest, ∑ i, (F ^ (k + 1)) i i := by
  refine ⟨ν.sum_mem read.mem_of_mem_traces, ?_⟩
  rw [Powers.traceSum, ν.value_sum read.mem_of_mem_traces, Finset.sum_range, ← List.sum_ofFn]
  congr 1
  apply List.ext_getElem
  · simp [read.length_traces]
  · intro k hk hk'
    have bound : k < (P.traces d).length := by simpa using hk
    simp [(read.traces k bound).2]

end Powers

end TropicalAlgebra
