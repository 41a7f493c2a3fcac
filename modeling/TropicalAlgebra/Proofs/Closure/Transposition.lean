import TropicalAlgebra.Proofs.Closure.Alike
import TropicalAlgebra.Proofs.Closure.Limit
import TropicalAlgebra.Proofs.Closure.Truncation
import TropicalAlgebra.Proofs.Dioid.Semiring
import TropicalAlgebra.Proofs.Matrix.Along

/-!
# Transposed matrices

Transposition turns every walk around. A product becomes the product of the transposes in the
opposite order, and since a closed walk that is turned around is a closed walk of the same weight,
traces and the spectral radius stay as they are and a closure becomes the closure of the transpose.
The powers of the transpose are formed from the other end, so this needs associativity.
-/

namespace WeightMatrix

variable {n : Nat} {β : Type} [CommSemiring β] (F : WeightMatrix n β)

/-- The graph in which every edge is turned around. -/
def reversed : WeightMatrix n β := Matrix.transpose F

theorem reversed_pow_apply (k : Nat) (i j : Fin n) : (F.reversed ^ k) i j = (F ^ k) j i := by
  rw [reversed, ← Matrix.transpose_pow, Matrix.transpose_apply]

theorem closureUpTo_reversed (k : Nat) : F.reversed.closureUpTo k = (F.closureUpTo k).reversed := by
  funext i j
  show F.reversed.closureUpTo k i j = F.closureUpTo k j i
  rw [closureUpTo_apply, closureUpTo_apply]
  exact Finset.sum_congr rfl fun l _ => F.reversed_pow_apply l i j

end WeightMatrix

namespace TropicalAlgebra

variable {α : Type}

namespace Matrix

/-- The product of two matrices is formed: the shapes fit, or one of them is a single cell, which
goes with every shape. -/
def Conformable (A B : Matrix α) : Prop := A.cols = B.rows ∨ A.isScalar ∨ B.isScalar

theorem corner_transpose (M : Matrix α) : M.transpose.corner = M.corner := cell_transpose M _ _

theorem isScalar_transpose (M : Matrix α) : M.transpose.isScalar = M.isScalar :=
  Bool.and_comm _ _

theorem diagonal_transpose (M : Matrix α) : M.transpose.diagonal = M.diagonal := by
  have rows : M.transpose.rows = M.cols := rfl
  have cols : M.transpose.cols = M.rows := rfl
  apply List.ext_getElem (by simp [diagonal, rows, cols, Nat.min_comm])
  intro i hi hi'
  simp only [diagonal, List.getElem_ofFn]
  exact cell_transpose M _ _

end Matrix

variable [Scalar α] {d : Dioid α} {β : Type} [CommSemiring β] {ν : d.Valuation β}

namespace Matrix

/-- The diagonal stays where it is, whatever the sums of its cells are. -/
theorem trace_transpose {M : Matrix α} (square : M.isSquare) :
    ∃ t, M.trace d = .ok t ∧ M.transpose.trace d = .ok t := by
  have square' : M.transpose.isSquare := by
    rw [isSquare, beq_iff_eq] at square ⊢
    exact square.symm
  refine ⟨M.diagonalSum d, ?_, ?_⟩
  · rw [trace, requireSquare, require, if_pos square]
    rfl
  · rw [trace, requireSquare, require, if_pos square', diagonalSum, diagonalSum,
      diagonal_transpose]
    rfl

/-! ### Products -/

section Products

variable {A B M : Matrix α}

theorem Reads.scale_transpose {m n : Nat} {F : Fin m → Fin n → β} (read : M.Reads ν F) {a : α}
    (member : a ∈ d) :
    ∃ N N', M.scale d a = .ok N ∧ M.transpose.scale d a = .ok N' ∧ N.transpose == N' := by
  obtain ⟨N, scaled, readN⟩ := read.scale member
  obtain ⟨N', scaled', readN'⟩ := read.transpose.scale member
  exact ⟨N, N', scaled, scaled', (readN.transpose.beq_iff readN').mpr rfl⟩

theorem Reads.mul_transpose {m k n : Nat} {F : Fin m → Fin k → β} {G : Fin k → Fin n → β}
    (readA : A.Reads ν F) (readB : B.Reads ν G) :
    ∃ C C', A.mul d B = .ok C ∧ B.transpose.mul d A.transpose = .ok C' ∧ C.transpose == C' := by
  obtain ⟨C, product, readC⟩ := readA.mul readB
  obtain ⟨C', product', readC'⟩ := readB.transpose.mul readA.transpose
  refine ⟨C, C', product, product', (readC.transpose.beq_iff readC').mpr ?_⟩
  funext j i
  exact Finset.sum_congr rfl fun c _ => mul_comm _ _

include ν in
/-- Transposing a product exchanges its factors. -/
theorem mul_transpose (hA : ∀ a ∈ A.toList, a ∈ d) (hB : ∀ b ∈ B.toList, b ∈ d)
    (conformable : A.Conformable B) :
    ∃ C C', A.mul d B = .ok C ∧ B.transpose.mul d A.transpose = .ok C' ∧ C.transpose == C' := by
  by_cases fits : A.cols = B.rows
  · obtain ⟨F, readA⟩ := exists_reads ν hA rfl fits
    obtain ⟨G, readB⟩ := exists_reads ν hB rfl rfl
    exact readA.mul_transpose readB
  obtain ⟨F, readA⟩ := exists_reads ν hA rfl rfl
  obtain ⟨G, readB⟩ := exists_reads ν hB rfl rfl
  -- one factor is a single cell and the other is not, so both products are multiples
  rw [Matrix.mul, Matrix.mul, isScalar_transpose, isScalar_transpose, corner_transpose,
    corner_transpose]
  by_cases left : A.isScalar = true
  · have right : ¬ B.isScalar = true := by
      intro right
      simp only [isScalar, Bool.and_eq_true, beq_iff_eq] at left right
      exact fits (left.2.trans right.1.symm)
    rw [if_pos left, if_neg right, if_pos left]
    exact readB.scale_transpose readA.corner_mem
  · have right : B.isScalar = true := (conformable.resolve_left fits).resolve_left left
    rw [if_neg left, if_pos right, if_pos right]
    exact readA.scale_transpose readB.corner_mem

end Products

/-! ### Closed walks -/

section Walks

variable {n : Nat} {F : WeightMatrix n β} {M : Matrix α}

theorem Reads.reversed (read : M.Reads ν F) : M.transpose.Reads ν F.reversed := read.transpose

theorem cycleSum_reversed (F : WeightMatrix n β) : cycleSum F.reversed = cycleSum F :=
  Finset.sum_congr rfl fun k _ => Finset.sum_congr rfl fun i _ => F.reversed_pow_apply (k + 1) i i

theorem Reads.traceSum_transpose (read : M.Reads ν F) :
    ∃ t t', M.traceSum d = .ok t ∧ M.transpose.traceSum d = .ok t' ∧ t == t' := by
  obtain ⟨t, summed, member, value⟩ := reads_traceSum read
  obtain ⟨t', summed', member', value'⟩ := reads_traceSum read.reversed
  refine ⟨t, t', summed, summed', (ν.beq_iff member member').mpr ?_⟩
  rw [value, value', cycleSum_reversed]

theorem Reads.star_transpose (read : M.Reads ν F) :
    (∃ S S', M.star d = .ok S ∧ M.transpose.star d = .ok S' ∧ S.transpose == S') ∨
      ∃ t t', M.star d = .error (.notWellDefined t d.one) ∧
        M.transpose.star d = .error (.notWellDefined t' d.one) ∧ t == t' := by
  rcases star_cases read with ⟨small, S, closed, readS⟩ | ⟨exceeds, t, refused⟩
  · rcases star_cases read.reversed with ⟨-, S', closed', readS'⟩ | ⟨exceeds', -⟩
    · rw [F.closureUpTo_reversed] at readS'
      exact Or.inl ⟨S, S', closed, closed', (readS.reversed.beq_iff readS').mpr rfl⟩
    · rw [cycleSum_reversed] at exceeds'
      exact absurd exceeds' small
  · rcases star_cases read.reversed with ⟨small', -⟩ | ⟨-, t', refused'⟩
    · rw [cycleSum_reversed] at small'
      exact absurd exceeds small'
    · obtain ⟨s, s', summed, summed', same⟩ := read.traceSum_transpose
      obtain ⟨trace, -⟩ := of_star_eq_notWellDefined refused
      obtain ⟨trace', -⟩ := of_star_eq_notWellDefined refused'
      obtain rfl := Except.ok.inj (summed.symm.trans trace)
      obtain rfl := Except.ok.inj (summed'.symm.trans trace')
      exact Or.inr ⟨s, s', refused, refused', same⟩

end Walks

end Matrix

/-! ### The spectral radius -/

namespace Dioid

/-- Elements other than zero are equal only to themselves. -/
def Separated (d : Dioid α) : Prop :=
  ∀ {a b}, a ∈ d → b ∈ d → ¬ d.isZero a → a == b → a = b

/-- Equal elements other than zero have equal powers, or none for reasons related by `E`. -/
def RespectsPowers (d : Dioid α) (E : Error α → Error α → Prop) : Prop :=
  ∀ {a b} (p : α), a ∈ d → b ∈ d → ¬ d.isZero a → a == b →
    Outcome.Alike E (· == ·) (d.pow a p) (d.pow b p)

theorem separated_of_lawfulBEq [LawfulBEq α] (d : Dioid α) : d.Separated :=
  fun _ _ _ equal => eq_of_beq equal

theorem Valuation.sum_beq (ν : d.Valuation β) {xs ys : List α}
    (equal : List.Forall₂ d.EqualElements xs ys) : d.sum xs == d.sum ys := by
  obtain ⟨left, right⟩ : (∀ a ∈ xs, a ∈ d) ∧ ∀ b ∈ ys, b ∈ d := mem_of_among equal
  have values : xs.map ν.value = ys.map ν.value := by
    rw [← List.forall₂_eq_eq_eq]
    exact List.rel_map (fun _ _ h => (ν.beq_iff h.1 h.2.1).mp h.2.2) equal
  rw [ν.beq_iff (ν.sum_mem left) (ν.sum_mem right), ν.value_sum left, ν.value_sum right, values]

end Dioid

namespace Powers

variable {n k : Nat} {F : WeightMatrix n β} {P Q : Powers α}

theorem Reads.traces_reversed (read : P.Reads ν F k) (read' : Q.Reads ν F.reversed k) :
    List.Forall₂ d.EqualElements (P.traces d) (Q.traces d) := by
  rw [List.forall₂_iff_get]
  refine ⟨read.length_traces.trans read'.length_traces.symm, fun i h h' => ?_⟩
  obtain ⟨member, value⟩ := read.traces i h
  obtain ⟨member', value'⟩ := read'.traces i h'
  refine ⟨member, member', (ν.beq_iff member member').mpr ?_⟩
  rw [value, value']
  exact Finset.sum_congr rfl fun l _ => (F.reversed_pow_apply (i + 1) l l).symm

end Powers

namespace Matrix

variable {n : Nat} {F : WeightMatrix n β} {M : Matrix α} {E : Error α → Error α → Prop}

/-- The closed walks of each length weigh as much in the transpose. -/
theorem Reads.cycleWeights_transpose (read : M.Reads ν F) :
    ∃ P Q, M.powers d M.rows false = .ok P ∧
      M.transpose.powers d M.transpose.rows false = .ok Q ∧
      List.Forall₂ (fun w w' => ¬ d.isZero w.1 ∧ d.EqualElements w.1 w'.1 ∧ w.2 = w'.2)
        (P.cycleWeights d) (Q.cycleWeights d) := by
  have pos : n ≠ 0 := by
    have := M.rows_pos
    rw [read.rows] at this
    omega
  obtain ⟨P, powers, readP, -⟩ := Powers.reads_powers read pos false
  obtain ⟨Q, powers', readQ, -⟩ := Powers.reads_powers read.reversed pos false
  rw [← read.rows] at powers
  rw [← read.reversed.rows] at powers'
  have isZero {a b : α} (equal : d.EqualElements a b) : d.isZero a = d.isZero b := by
    rw [Bool.eq_iff_iff, ν.isZero_iff equal.1, ν.isZero_iff equal.2.1,
      (ν.beq_iff equal.1 equal.2.1).mp equal.2.2]
  have nonzero : ∀ w ∈ P.cycleWeights d, ¬ d.isZero w.1 = true := by
    intro w member
    simpa using (List.mem_filter.mp member).2
  exact ⟨P, Q, powers, powers', (List.forall₂_and_left _ _).mpr
    ⟨nonzero, Powers.cycleWeights_related (readP.traces_reversed readQ) isZero⟩⟩

theorem Reads.spectralRadius_transpose_eq (separated : d.Separated) (read : M.Reads ν F) :
    M.spectralRadius d = M.transpose.spectralRadius d := by
  obtain ⟨P, Q, powers, powers', weights⟩ := read.cycleWeights_transpose
  have same : P.cycleWeights d = Q.cycleWeights d := by
    rw [← List.forall₂_eq_eq_eq]
    refine weights.imp fun w w' ⟨nonzero, ⟨left, right, equal⟩, length⟩ => ?_
    exact Prod.ext (separated left right nonzero equal) length
  simp only [spectralRadius, powers, powers', bind, Except.bind, same]

theorem Reads.spectralRadius_transpose (respects : d.RespectsPowers E) (read : M.Reads ν F) :
    Outcome.Alike E (· == ·) (M.spectralRadius d) (M.transpose.spectralRadius d) := by
  obtain ⟨P, Q, powers, powers', weights⟩ := read.cycleWeights_transpose
  have mean {w w' : α × Nat}
      (related : ¬ d.isZero w.1 ∧ d.EqualElements w.1 w'.1 ∧ w.2 = w'.2) :
      Outcome.Alike E (fun b b' => b == b' ∧ b ∈ d ∧ b' ∈ d) (d.meanWeight w)
        (d.meanWeight w') := by
    obtain ⟨nonzero, equal, length⟩ := related
    unfold Dioid.meanWeight
    rw [← length]
    exact (respects _ equal.1 equal.2.1 nonzero equal.2.2).and_ok
      (fun _ => Dioid.pow_mem ν.zero_mem ν.one_mem) (fun _ => Dioid.pow_mem ν.zero_mem ν.one_mem)
  have means := Outcome.Alike.of_mapM weights mean
  rw [spectralRadius, spectralRadius, powers, powers']
  exact means.bind fun related =>
    .ok (ν.sum_beq (related.imp fun _ _ h => ⟨h.2.1, h.2.2, h.1⟩))

/-- Transposition reverses the order of the factors of a product. It keeps the trace and the power
trace, and it commutes with the closure, which the transpose is refused for the same trace. The
spectral radius sums powers, of which the laws say nothing. It is the same scalar, or fails with the
same error, where equal elements other than zero are the same; where two scalars stand for one
element, it is an equal one if equal elements have equal powers. -/
theorem transpose_reverses (law : d.IsSemiring) :
    (∀ A B : Matrix α, (∀ a ∈ A.toList, a ∈ d) → (∀ b ∈ B.toList, b ∈ d) → A.Conformable B →
      ∃ C C', A.mul d B = .ok C ∧ B.transpose.mul d A.transpose = .ok C' ∧ C.transpose == C') ∧
    ∀ M : Matrix α, M.isSquare → (∀ a ∈ M.toList, a ∈ d) →
      (∃ t, M.trace d = .ok t ∧ M.transpose.trace d = .ok t) ∧
      (∃ t t', M.traceSum d = .ok t ∧ M.transpose.traceSum d = .ok t' ∧ t == t') ∧
      (d.Separated → M.spectralRadius d = M.transpose.spectralRadius d) ∧
      (∀ E, d.RespectsPowers E →
        Outcome.Alike E (· == ·) (M.spectralRadius d) (M.transpose.spectralRadius d)) ∧
      ((∃ S S', M.star d = .ok S ∧ M.transpose.star d = .ok S' ∧ S.transpose == S') ∨
        ∃ t t', M.star d = .error (.notWellDefined t d.one) ∧
          M.transpose.star d = .error (.notWellDefined t' d.one) ∧ t == t') := by
  obtain ⟨β, _, ν, -⟩ := law.exists_valuation
  refine ⟨fun A B hA hB conformable => mul_transpose (ν := ν) hA hB conformable, ?_⟩
  intro M square elements
  have same : M.cols = M.rows := (beq_iff_eq.mp square).symm
  obtain ⟨F, read⟩ : ∃ F : WeightMatrix M.rows β, M.Reads ν F := exists_reads ν elements rfl same
  exact ⟨trace_transpose square, read.traceSum_transpose,
    fun separated => read.spectralRadius_transpose_eq separated,
    fun _ respects => read.spectralRadius_transpose respects, read.star_transpose⟩

-- a single cell goes with every shape; the loop is the graph that has no closure
theorem transpose_reverses_singleEdge_selfLoop :
    (∃ C C', selfLoop.mul .maxPlus singleEdge = .ok C ∧
      singleEdge.transpose.mul .maxPlus selfLoop.transpose = .ok C' ∧ C.transpose == C') ∧
    selfLoop.spectralRadius .maxPlus = selfLoop.transpose.spectralRadius .maxPlus ∧
    (∃ S S', singleEdge.star .maxPlus = .ok S ∧ singleEdge.transpose.star .maxPlus = .ok S' ∧
      S.transpose == S') ∧
    ∃ t t', selfLoop.star .maxPlus = .error (.notWellDefined t (.rational 0)) ∧
      selfLoop.transpose.star .maxPlus = .error (.notWellDefined t' (.rational 0)) ∧ t == t' := by
  have law := (Dioid.Chart.lawful .maxPlus).isSemiring
  obtain ⟨product, graphs⟩ := transpose_reverses law
  obtain ⟨-, -, -, -, edge⟩ := graphs singleEdge rfl (by decide)
  obtain ⟨-, -, radius, -, loop⟩ := graphs selfLoop rfl (by decide)
  refine ⟨product _ _ (by decide) (by decide) (.inr (.inl rfl)), ?_, ?_, ?_⟩
  · exact radius (Dioid.separated_of_lawfulBEq _)
  · exact edge.resolve_right fun ⟨_, _, refused, _⟩ => nomatch refused
  · exact loop.resolve_left fun ⟨_, _, closed, _⟩ => nomatch closed

end Matrix

end TropicalAlgebra
