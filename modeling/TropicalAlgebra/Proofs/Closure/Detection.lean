import TropicalAlgebra.Closure.Star
import TropicalAlgebra.Proofs.Dioid.Outside
import TropicalAlgebra.Proofs.Matrix.PlainProduct
import TropicalAlgebra.Proofs.Matrix.Powers
import TropicalAlgebra.Proofs.Matrix.PowersReading

/-!
# Scalars that are let through

Sums and closures check their results and not their operands. A scalar that is not an element is
found only if it comes through to the result. What is no number gets lost on the left of a sum, and
a negative number in max-times on either side.
-/

namespace TropicalAlgebra

open Binary64

/-! ### Sums -/

namespace AlgebraName

variable (n : AlgebraName) {a b : Float}

/-- Two cells with an element as their sum. If one of them is no element, then the sum returns the
other one. This has to come second where the first is no number, and must not be zero, since zero
gives way. -/
def Accepts (a b : Float) : Prop :=
  (a ∈ (n.dioid : Dioid Float) ∧ b ∈ (n.dioid : Dioid Float)) ∨
  ((¬ IsNumber a ∨ n.Loses a) ∧ b ∈ (n.dioid : Dioid Float) ∧
    (n.dioid : Dioid Float).isZero b = false) ∨
  (n.Loses b ∧ a ∈ (n.dioid : Dioid Float) ∧ (n.dioid : Dioid Float).isZero a = false)

theorem addCell_mem_iff :
    Matrix.addCell n.dioid a b ∈ (n.dioid : Dioid Float) ↔ n.Accepts a b := by
  unfold Matrix.addCell Accepts
  split
  next empty =>
    -- zero gives way, so the sum is the right operand
    have member := n.exchangeable.mem_of_isZero empty
    have number := n.isNumber_of_mem member
    have stays : ¬ n.Loses a := fun loses => loses.not_mem member
    simp only [member, number, stays, empty, true_and, not_true_eq_false, false_and, and_false,
      or_false, Bool.true_eq_false]
  next present =>
    rw [Bool.not_eq_true] at present
    split
    next empty =>
      have member := n.exchangeable.mem_of_isZero empty
      have stays : ¬ n.Loses b := fun loses => loses.not_mem member
      simp only [member, stays, empty, and_true, false_and, and_false, or_false,
        Bool.true_eq_false]
    next present' =>
      rw [Bool.not_eq_true] at present'
      simp only [present, present', and_true]
      exact n.add_mem_iff_or_loses

end AlgebraName

/-! ### Sums of two matrices -/

namespace Matrix

variable (n : AlgebraName) {A B M : Matrix Float}

/-- A sum is there if every pair of cells is accepted. -/
theorem exists_add_eq_ok_iff :
    (∃ V, A.add n.dioid B = .ok V) ↔ A.rows = B.rows ∧ A.cols = B.cols ∧
      ∀ i j (hi : i < A.rows) (hj : j < A.cols) (hi' : i < B.rows) (hj' : j < B.cols),
        n.Accepts (A.cell ⟨i, hi⟩ ⟨j, hj⟩) (B.cell ⟨i, hi'⟩ ⟨j, hj'⟩) := by
  unfold add
  split
  next same =>
    have cell {i j : Nat} (hi : i < A.rows) (hj : j < A.cols) (hi' : i < B.rows)
        (hj' : j < B.cols) :
        (zipWith (addCell n.dioid) A B same.1 same.2).cell ⟨i, hi⟩ ⟨j, hj⟩ =
          addCell n.dioid (A.cell ⟨i, hi⟩ ⟨j, hj⟩) (B.cell ⟨i, hi'⟩ ⟨j, hj'⟩) :=
      cell_zipWith _ A B same.1 same.2 _ _
    constructor
    · rintro ⟨V, computed⟩
      have elements := members_iff.mp ((checked_eq_ok_iff _).mp computed).1
      refine ⟨same.1, same.2, fun i j hi hj hi' hj' => ?_⟩
      rw [← n.addCell_mem_iff, ← cell hi hj hi' hj']
      exact elements i j hi hj
    · rintro ⟨rows, cols, accepts⟩
      refine ⟨_, (checked_eq_ok_iff _).mpr ⟨members_iff.mpr fun i j hi hj => ?_, rfl⟩⟩
      have hi' : i < B.rows := rows ▸ hi
      have hj' : j < B.cols := cols ▸ hj
      rw [cell hi hj hi' hj', n.addCell_mem_iff]
      exact accepts i j hi hj hi' hj'
  next differ =>
    constructor
    · rintro ⟨V, computed⟩
      nomatch computed
    · rintro ⟨rows, cols, -⟩
      exact absurd ⟨rows, cols⟩ differ

/-! ### Closures -/

/-- What the sum of the identity and a matrix lets through: negative numbers on the diagonal, in
max-times. -/
theorem mem_of_identity_add {V : Matrix Float}
    (added : (identityOfPos n.dioid M.rows M.rows_pos).add n.dioid M = .ok V) {i j : Nat}
    (hi : i < M.rows) (hj : j < M.cols) :
    M.cell ⟨i, hi⟩ ⟨j, hj⟩ ∈ (n.dioid : Dioid Float) ∨
      i = j ∧ n.Loses (M.cell ⟨i, hi⟩ ⟨j, hj⟩) := by
  obtain ⟨-, cols, accepts⟩ := (exists_add_eq_ok_iff n).mp ⟨V, added⟩
  have hj' : j < M.rows := Nat.lt_of_lt_of_eq hj cols.symm
  have cell : (identityOfPos n.dioid M.rows M.rows_pos).cell ⟨i, hi⟩ ⟨j, hj'⟩ =
      identityCell n.dioid i j := cell_ofFn _ _
  have accepted := accepts i j hi hj' hi hj
  rw [cell] at accepted
  have law := n.exchangeable
  have element : identityCell n.dioid i j ∈ (n.dioid : Dioid Float) := by
    unfold identityCell
    split
    · exact law.one_mem
    · exact law.zero_mem
  rcases accepted with ⟨-, member⟩ | ⟨none | loses, -⟩ | ⟨loses, -, present⟩
  · exact .inl member
  · exact absurd (n.isNumber_of_mem element) none
  · exact absurd element loses.not_mem
  · -- off the diagonal the identity is zero and gives way
    by_cases same : i = j
    · exact .inr ⟨same, loses⟩
    · rw [identityCell, if_neg same] at present
      exact absurd law.isZero_zero (Bool.not_eq_true _ ▸ present)

end Matrix

namespace Powers

variable {α : Type} [Scalar α] {d : Dioid α} {P : Powers α} {k : Nat} {S : Matrix α}

/-- Every sum of powers but the first one starts with the identity and the base. -/
theorem Successive.exists_identity_add (successive : P.Successive d) (pos : 0 < k)
    (bound : k < P.terms.size) (summed : P.sumUpTo d k = .ok S) :
    ∃ V, P.identity.add d P.base = .ok V := by
  -- the terms are added in order, so every sum goes through the one of the first two
  induction k generalizing S with
  | zero => exact absurd pos (lt_irrefl 0)
  | succ k ih =>
    rw [sumUpTo_succ P bound] at summed
    obtain ⟨T, earlier, added⟩ := bind_eq_ok_iff.mp summed
    cases k with
    | zero =>
      obtain rfl := Except.ok.inj earlier
      have base : P.terms[1] = P.base :=
        (Array.getElem?_eq_some_iff.mp successive.first).2
      exact ⟨S, base ▸ added⟩
    | succ k => exact ih (Nat.succ_pos k) (by omega) earlier

/-- The trace of a single cell is this cell, or zero if it equals zero. -/
theorem Successive.traceSum_of_rows_eq_one (successive : P.Successive d) (law : d.Exchangeable)
    (size : P.terms.size = 2) (square : P.base.rows = P.base.cols) (single : P.base.rows = 1) :
    d.isZero P.base.corner = true ∨ P.traceSum d = P.base.corner := by
  have base : P.terms[1] = P.base := (Array.getElem?_eq_some_iff.mp successive.first).2
  have positive : P.positive = [P.base] := by
    apply List.ext_getElem (by simp [Powers.positive, size])
    intro k hk hk'
    obtain rfl : k = 0 := by simpa using hk'
    simp [Powers.positive, base]
  have diagonal : P.base.diagonal = [P.base.corner] := by
    apply List.ext_getElem (by simp [Matrix.diagonal, ← square, single])
    intro i hi hi'
    obtain rfl : i = 0 := by simpa using hi'
    simp [Matrix.diagonal, Matrix.corner]
  rw [traceSum, traces, positive, List.map_singleton, Matrix.diagonalSum, diagonal]
  by_cases empty : d.isZero P.base.corner = true
  · exact .inl empty
  · have sum : d.sum [P.base.corner] = P.base.corner := by rw [law.sum_singleton, if_neg empty]
    rw [sum, sum]
    exact .inr rfl

end Powers

namespace AlgebraName

variable (n : AlgebraName) {a : Float}

/-- A number that does not exceed one is an element, or it loses against all of them. -/
theorem mem_of_not_dominates_one (number : IsNumber a)
    (low : ¬ (n.dioid : Dioid Float).dominates a (n.dioid : Dioid Float).one = true) :
    a ∈ (n.dioid : Dioid Float) ∨ n.Loses a := by
  have one := n.exchangeable.one_mem
  rw [n.rankedNumbers.dominates_iff number (n.isNumber_of_mem one), not_lt] at low
  exact n.mem_of_rank_le one number low

end AlgebraName

namespace Matrix

variable (n : AlgebraName) {M : Matrix Float} {i j : Nat}

/-- A scalar at `(i, j)` that a closure does not notice: one that is no number, if it is the only
cell, or a negative number on the diagonal in max-times. -/
def Unnoticed (M : Matrix Float) (i j : Nat) (a : Float) : Prop :=
  M.rows = 1 ∧ ¬ IsNumber a ∨ i = j ∧ n.Loses a

/-- The base is a term of every sum that does not stop at the identity. -/
theorem mem_of_sumUpTo {P : Powers Float} {k : Nat} {S : Matrix Float}
    (successive : P.Successive n.dioid) (pos : 0 < k) (bound : k < P.terms.size)
    (summed : P.sumUpTo n.dioid k = .ok S) (hi : i < P.base.rows) (hj : j < P.base.cols) :
    P.base.cell ⟨i, hi⟩ ⟨j, hj⟩ ∈ (n.dioid : Dioid Float) ∨
      i = j ∧ n.Loses (P.base.cell ⟨i, hi⟩ ⟨j, hj⟩) := by
  obtain ⟨V, added⟩ := successive.exists_identity_add pos bound summed
  rw [successive.identity] at added
  exact mem_of_identity_add n added hi hj

/-- A matrix with more than one row is added to the identity; a single cell is compared to one. -/
theorem mem_of_star {S : Matrix Float} (computed : M.star n.dioid = .ok S) (hi : i < M.rows)
    (hj : j < M.cols) :
    M.cell ⟨i, hi⟩ ⟨j, hj⟩ ∈ (n.dioid : Dioid Float) ∨
      Unnoticed n M i j (M.cell ⟨i, hi⟩ ⟨j, hj⟩) := by
  obtain ⟨P, powers, computed⟩ := bind_eq_ok_iff.mp computed
  obtain ⟨low, summed⟩ := require_bind_eq_ok_iff.mp computed
  obtain ⟨square, successive, rfl, size⟩ := Powers.successive_powers powers
  by_cases single : P.base.rows = 1
  · obtain rfl : i = 0 := by omega
    obtain rfl : j = 0 := by omega
    change P.base.corner ∈ _ ∨ Unnoticed n P.base 0 0 P.base.corner
    have law := n.exchangeable
    rcases successive.traceSum_of_rows_eq_one law (by omega) square single with empty | trace
    · exact .inl (law.mem_of_isZero empty)
    · -- what is no number does not exceed one either
      rw [trace] at low
      by_cases number : IsNumber P.base.corner
      · exact (n.mem_of_not_dominates_one number low).imp_right fun loses => .inr ⟨rfl, loses⟩
      · exact .inr (.inl ⟨single, number⟩)
  · have pos := P.base.rows_pos
    have cells := mem_of_sumUpTo n successive (by omega) (by omega) summed hi hj
    exact cells.imp_right .inr

theorem star_of_closure_exact {highest : Option Nat} {S : Matrix Float}
    (computed : M.closure n.dioid highest = .ok (.exact S)) : M.star n.dioid = .ok S := by
  obtain ⟨P, powers, computed⟩ := bind_eq_ok_iff.mp computed
  refine bind_eq_ok_iff.mpr ⟨P, powers, ?_⟩
  split at computed
  next =>
    obtain ⟨Q, -, computed⟩ := bind_eq_ok_iff.mp computed
    obtain ⟨T, -, computed⟩ := bind_eq_ok_iff.mp computed
    cases computed
  next low =>
    obtain ⟨T, summed, computed⟩ := bind_eq_ok_iff.mp computed
    obtain rfl := Closure.exact.inj (Except.ok.inj computed)
    exact require_bind_eq_ok_iff.mpr ⟨low, summed⟩

theorem mem_of_closure_upTo {highest : Option Nat} {k : Nat} {S : Matrix Float}
    (computed : M.closure n.dioid highest = .ok (.upTo k S)) (pos : 0 < k) (hi : i < M.rows)
    (hj : j < M.cols) :
    M.cell ⟨i, hi⟩ ⟨j, hj⟩ ∈ (n.dioid : Dioid Float) ∨
      i = j ∧ n.Loses (M.cell ⟨i, hi⟩ ⟨j, hj⟩) := by
  obtain ⟨P, powers, computed⟩ := bind_eq_ok_iff.mp computed
  split at computed
  next =>
    -- the powers are continued as far as the sum goes
    obtain ⟨Q, extended, computed⟩ := bind_eq_ok_iff.mp computed
    obtain ⟨T, summed, computed⟩ := bind_eq_ok_iff.mp computed
    obtain ⟨rfl, rfl⟩ := Closure.upTo.inj (Except.ok.inj computed)
    obtain ⟨-, successive, rfl, size⟩ := Powers.successive_powers powers
    obtain ⟨successiveQ, baseQ, sizeQ⟩ := successive.advance extended
    have bound : highest.getD (P.base.cols - 1) < Q.terms.size := by
      rw [sizeQ, Powers.highest]
      omega
    have cells := mem_of_sumUpTo n successiveQ pos bound summed (i := i) (j := j)
    rw [baseQ] at cells
    exact cells hi hj
  next =>
    obtain ⟨T, -, computed⟩ := bind_eq_ok_iff.mp computed
    cases computed

/-- What is known of the operands of a sum, of a star and of a closure from the fact that there is a
result. A sum is there exactly if every pair of cells is accepted. The cells of a matrix with a
star or closure are elements but for those that are not noticed. A sum of powers that stops at the
identity is left out, for the matrix is not among its terms. -/
theorem operands_of_results (n : AlgebraName) (A B M : Matrix Float) (highest : Option Nat) :
    ((∃ V, A.add n.dioid B = .ok V) ↔ A.rows = B.rows ∧ A.cols = B.cols ∧
      ∀ i j (hi : i < A.rows) (hj : j < A.cols) (hi' : i < B.rows) (hj' : j < B.cols),
        n.Accepts (A.cell ⟨i, hi⟩ ⟨j, hj⟩) (B.cell ⟨i, hi'⟩ ⟨j, hj'⟩)) ∧
    (∀ S, M.star n.dioid = .ok S ∨ M.closure n.dioid highest = .ok (.exact S) →
      ∀ i j (hi : i < M.rows) (hj : j < M.cols),
        M.cell ⟨i, hi⟩ ⟨j, hj⟩ ∈ (n.dioid : Dioid Float) ∨
          Unnoticed n M i j (M.cell ⟨i, hi⟩ ⟨j, hj⟩)) ∧
    (∀ k S, M.closure n.dioid highest = .ok (.upTo k S) → 0 < k →
      ∀ i j (hi : i < M.rows) (hj : j < M.cols),
        M.cell ⟨i, hi⟩ ⟨j, hj⟩ ∈ (n.dioid : Dioid Float) ∨
          i = j ∧ n.Loses (M.cell ⟨i, hi⟩ ⟨j, hj⟩)) := by
  refine ⟨exists_add_eq_ok_iff n, fun S computed i j hi hj => ?_, fun k S computed pos i j hi hj =>
    mem_of_closure_upTo n computed pos hi hj⟩
  rcases computed with star | closure
  · exact mem_of_star n star hi hj
  · exact mem_of_star n (star_of_closure_exact n closure) hi hj

/-- A single cell that is no number. -/
def undefined : Matrix Float := .singleton (0 / 0)

/-- Negative numbers on the diagonal. -/
def damped : Matrix Float := .ofVectors #v[#v[-1, 0], #v[0, 0]]

def growing : Matrix Float := .ofVectors #v[#v[-1, 0], #v[0, 2]]

/-- None of them is a matrix over max-times. But the first can be added to one from the left, the
second has a star, and the powers of the third have a sum. -/
theorem operands_of_results_maxTimes :
    (∃ V, undefined.add .maxTimes (.singleton 1) = .ok V) ∧
      (∃ S, damped.star .maxTimes = .ok S ∧ ∀ i j (hi : i < damped.rows) (hj : j < damped.cols),
        damped.cell ⟨i, hi⟩ ⟨j, hj⟩ ∈ (Dioid.maxTimes : Dioid Float) ∨
          Unnoticed .maxTimes damped i j (damped.cell ⟨i, hi⟩ ⟨j, hj⟩)) ∧
      ∃ S, growing.closure .maxTimes (some 2) = .ok (.upTo 2 S) ∧
        ∀ i j (hi : i < growing.rows) (hj : j < growing.cols),
          growing.cell ⟨i, hi⟩ ⟨j, hj⟩ ∈ (Dioid.maxTimes : Dioid Float) ∨
            i = j ∧ AlgebraName.Loses .maxTimes (growing.cell ⟨i, hi⟩ ⟨j, hj⟩) := by
  have missing : ¬ IsNumber (0 / 0) := by
    rw [← isNumber_iff]
    decide +kernel
  have one : (1 : Float) ∈ (Dioid.maxTimes : Dioid Float) ∧
      Dioid.maxTimes.isZero (1 : Float) = false := by decide +kernel
  have star : damped.star .maxTimes = .ok (identityOfPos .maxTimes 2 Nat.two_pos) := by
    decide +kernel
  have sums : growing.closure .maxTimes (some 2) =
      .ok (.upTo 2 (.ofVectors #v[#v[1, 0], #v[0, 4]])) := by
    decide +kernel
  refine ⟨?_, ⟨_, star, ?_⟩, ⟨_, sums, ?_⟩⟩
  · refine (operands_of_results .maxTimes undefined (.singleton 1) damped none).1.mpr
      ⟨rfl, rfl, fun i j hi hj hi' hj' => ?_⟩
    obtain rfl : i = 0 := Nat.lt_one_iff.mp hi
    obtain rfl : j = 0 := Nat.lt_one_iff.mp hj
    exact .inr (.inl ⟨.inl missing, one⟩)
  · exact (operands_of_results .maxTimes undefined undefined damped none).2.1 _ (.inl star)
  · exact (operands_of_results .maxTimes undefined undefined growing (some 2)).2.2 2 _ sums
      Nat.two_pos

/-- A sum with a cell that is no number. -/
theorem undefined_add_one :
    (0 / 0 : Float) ∉ (Dioid.maxPlus : Dioid Float) ∧
      undefined.add .maxPlus (.singleton 1) = .ok (.singleton 1) := by
  decide +kernel

end Matrix

end TropicalAlgebra
