import Mathlib.Algebra.BigOperators.Fin
import TropicalAlgebra.Matrix.Arithmetic
import TropicalAlgebra.Proofs.Dioid.Valuation
import TropicalAlgebra.Proofs.Matrix.Equality
import TropicalAlgebra.Proofs.Matrix.Shapes

/-!
# Reading a matrix through a valuation

A stored matrix reads a function of row and column if its cells are elements with the values of
that function. Each operation on stored matrices is described here once, by what its result reads;
nothing else about these operations is used later.
-/

namespace TropicalAlgebra

namespace Matrix

variable {α : Type} [Scalar α] {d : Dioid α} {β : Type} [CommSemiring β] (ν : d.Valuation β)
variable {m n k : Nat}

/-- The cells of `M` are elements, and `F` holds their values. -/
structure Reads (M : Matrix α) (F : Fin m → Fin n → β) : Prop where
  rows : M.rows = m
  cols : M.cols = n
  mem : ∀ i j, M.cell i j ∈ d
  value : ∀ i j, ν.value (M.cell (i.cast rows.symm) (j.cast cols.symm)) = F i j

variable {ν}

theorem reads_ofFn {hm : 0 < m} {hn : 0 < n} {f : Fin m → Fin n → α} {F : Fin m → Fin n → β}
    (mem : ∀ i j, f i j ∈ d) (value : ∀ i j, ν.value (f i j) = F i j) :
    (ofFn m n hm hn f).Reads ν F where
  rows := rfl
  cols := rfl
  mem i j := by
    have cell : (ofFn m n hm hn f).cell i j = f i j := cell_ofFn i j
    rw [cell]
    exact mem i j
  value i j := (congrArg ν.value (cell_ofFn i j)).trans (value i j)

variable (ν) in
/-- A matrix of elements reads the values of its cells. -/
theorem exists_reads {M : Matrix α} (elements : ∀ a ∈ M.toList, a ∈ d) (rows : M.rows = m)
    (cols : M.cols = n) : ∃ F : Fin m → Fin n → β, M.Reads ν F := by
  subst rows cols
  exact ⟨fun i j => ν.value (M.cell i j), rfl, rfl,
    fun i j => elements _ (mem_toList.mpr ⟨i, j, rfl⟩), fun _ _ => rfl⟩

namespace Reads

variable {A B M : Matrix α} {F : Fin m → Fin n → β}

theorem mem_of_mem_toList (read : M.Reads ν F) : ∀ a ∈ M.toList, a ∈ d := by
  intro a ha
  obtain ⟨i, j, rfl⟩ := mem_toList.mp ha
  exact read.mem i j

theorem toOver (read : M.Reads ν F) : M.Over d m n :=
  ⟨read.rows, read.cols, read.mem_of_mem_toList⟩

theorem checked (read : M.Reads ν F) : M.checked d = .ok M :=
  (checked_eq_ok_iff d).mpr ⟨read.mem_of_mem_toList, rfl⟩

theorem value_cell (read : M.Reads ν F) (i : Fin M.rows) (j : Fin M.cols) :
    ν.value (M.cell i j) = F (i.cast read.rows) (j.cast read.cols) :=
  read.value (i.cast read.rows) (j.cast read.cols)

theorem of_get? (read : M.Reads ν F) {i j : Nat} {a : α} (found : M.get? i j = some a) :
    ∃ (hi : i < m) (hj : j < n), a ∈ d ∧ ν.value a = F ⟨i, hi⟩ ⟨j, hj⟩ := by
  unfold get? at found
  split at found
  next inside =>
    obtain rfl := Option.some.inj found
    have hi : i < m := inside.1.trans_eq read.rows
    have hj : j < n := inside.2.trans_eq read.cols
    exact ⟨hi, hj, read.mem _ _, read.value ⟨i, hi⟩ ⟨j, hj⟩⟩
  next => simp at found

/-- Two matrices are equal exactly if they read the same. -/
theorem beq_iff {G : Fin m → Fin n → β} (readA : A.Reads ν F) (readB : B.Reads ν G) :
    (A == B) = true ↔ F = G := by
  rw [Matrix.beq_iff]
  constructor
  · rintro ⟨hr, hc, cells⟩
    funext i j
    have equal := cells (i.cast readA.rows.symm) (j.cast readA.cols.symm)
    rw [ν.beq_iff (readA.mem _ _) (readB.mem _ _), readA.value] at equal
    exact equal.trans (readB.value i j)
  · rintro rfl
    refine ⟨readA.rows.trans readB.rows.symm, readA.cols.trans readB.cols.symm, fun i j => ?_⟩
    rw [ν.beq_iff (readA.mem _ _) (readB.mem _ _), readA.value_cell, readB.value_cell]
    rfl

theorem map {f : α → α} {g : β → β} (read : M.Reads ν F)
    (reading : ∀ a, a ∈ d → f a ∈ d ∧ ν.value (f a) = g (ν.value a)) :
    (M.map f).Reads ν fun i j => g (F i j) where
  rows := read.rows
  cols := read.cols
  mem i j := by
    rw [cell_map f M i j]
    exact (reading _ (read.mem i j)).1
  value i j := by
    have cell := cell_map f M (i.cast read.rows.symm) (j.cast read.cols.symm)
    refine (congrArg ν.value cell).trans ?_
    rw [(reading _ (read.mem _ _)).2, read.value]

theorem transpose (read : M.Reads ν F) : M.transpose.Reads ν fun j i => F i j where
  rows := read.cols
  cols := read.rows
  mem j i := by
    rw [cell_transpose M j i]
    exact read.mem i j
  value j i := by
    have cell := cell_transpose M (j.cast read.cols.symm) (i.cast read.rows.symm)
    exact (congrArg ν.value cell).trans (read.value i j)

theorem corner_mem (read : M.Reads ν F) : M.corner ∈ d := read.mem _ _

theorem value_corner {F : Fin 1 → Fin 1 → β} (read : M.Reads ν F) :
    ν.value M.corner = F 0 0 :=
  (read.value_cell _ _).trans (by congr 1)

end Reads

/-! ## Operations -/

theorem reads_identity (size : Nat) (pos : 0 < size) :
    (identityOfPos d size pos).Reads ν fun i j : Fin size => if i = j then 1 else 0 := by
  apply reads_ofFn
  · intro i j
    unfold identityCell
    split
    · exact ν.one_mem
    · exact ν.zero_mem
  · intro i j
    simp only [identityCell, Fin.val_inj]
    split
    · exact ν.value_one
    · exact ν.value_zero

theorem Reads.scale {M : Matrix α} {F : Fin m → Fin n → β} (read : M.Reads ν F) {scalar : α}
    (member : scalar ∈ d) :
    ∃ N, M.scale d scalar = .ok N ∧ N.Reads ν fun i j => F i j * ν.value scalar := by
  rw [Matrix.scale, Dioid.element_of_mem member]
  -- a zero scalar empties the matrix without forming any product
  by_cases empty : d.isZero scalar = true
  · have vanishes : ν.value scalar = 0 := (ν.isZero_iff member).mp empty
    refine ⟨M.map fun _ => d.zero, by simp [bind, Except.bind, pure, Except.pure, empty], ?_⟩
    simpa only [vanishes, mul_zero] using
      read.map (g := fun _ => 0) fun _ _ => ⟨ν.zero_mem, ν.value_zero⟩
  · have scaled : (M.map (scaleCell d scalar)).Reads ν fun i j => F i j * ν.value scalar := by
      apply read.map (g := fun b => b * ν.value scalar)
      intro a ha
      unfold scaleCell
      split
      next stays => exact ⟨ha, by rw [(ν.isZero_iff ha).mp stays, zero_mul]⟩
      next => exact ⟨ν.mul_mem ha member, ν.value_mul ha member⟩
    exact ⟨_, by simpa [bind, Except.bind, empty] using scaled.checked, scaled⟩

private theorem reads_products {A B : Matrix α} {F : Fin m → Fin k → β} {G : Fin k → Fin n → β}
    (readA : A.Reads ν F) (readB : B.Reads ν G) :
    (products d A B).Reads ν fun i j => ∑ c, F i c * G c j := by
  have rowMem (i : Fin A.rows) : ∀ a ∈ A.row i, a ∈ d := by
    rw [row_eq_ofFn]
    intro a ha
    obtain ⟨j, rfl⟩ := (List.mem_ofFn' _ _).mp ha
    exact readA.mem i j
  have columnMem (j : Fin B.cols) : ∀ a ∈ B.column j, a ∈ d := by
    rw [column_eq_ofFn]
    intro a ha
    obtain ⟨i, rfl⟩ := (List.mem_ofFn' _ _).mp ha
    exact readB.mem i j
  refine ⟨readA.rows, readB.cols, ?_, ?_⟩
  · intro i j
    have cell : (products d A B).cell i j = d.dot (A.row i) (B.column j) := cell_ofFn i j
    rw [cell]
    exact ν.dot_mem (rowMem i) (columnMem j)
  · intro i j
    have cell : (products d A B).cell (i.cast readA.rows.symm) (j.cast readB.cols.symm) =
        d.dot (A.row (i.cast readA.rows.symm)) (B.column (j.cast readB.cols.symm)) := cell_ofFn _ _
    rw [cell, ν.value_dot (rowMem _) (columnMem _), ← List.sum_ofFn]
    congr 1
    apply List.ext_getElem
    · simp [readA.cols, readB.rows]
    · intro c hc hc'
      have bound : c < k := by simpa using hc'
      have left := readA.value i ⟨c, bound⟩
      have right := readB.value ⟨c, bound⟩ j
      simp only [Fin.cast_mk] at left right
      simp [Dioid.Valuation.product, row_eq_ofFn, column_eq_ofFn, left, right]

/-- A product reads the sum of products, also where a single cell takes part as a scalar. -/
theorem Reads.mul {A B : Matrix α} {F : Fin m → Fin k → β} {G : Fin k → Fin n → β}
    (readA : A.Reads ν F) (readB : B.Reads ν G) :
    ∃ C, A.mul d B = .ok C ∧ C.Reads ν fun i j => ∑ c, F i c * G c j := by
  rw [Matrix.mul]
  -- a single cell on the left, a single cell on the right, or a proper product
  split
  next single =>
    have sizes : m = 1 ∧ k = 1 := by
      simpa [isScalar, readA.rows, readA.cols] using single
    obtain ⟨rfl, rfl⟩ := sizes
    obtain ⟨C, scaled, readC⟩ := readB.scale readA.corner_mem
    refine ⟨C, scaled, ?_⟩
    convert readC using 3 with i j
    rw [Fin.sum_univ_one, readA.value_corner, Subsingleton.elim i 0, mul_comm]
  next =>
    split
    next single =>
      have sizes : k = 1 ∧ n = 1 := by
        simpa [isScalar, readB.rows, readB.cols] using single
      obtain ⟨rfl, rfl⟩ := sizes
      obtain ⟨C, scaled, readC⟩ := readA.scale readB.corner_mem
      refine ⟨C, scaled, ?_⟩
      convert readC using 3 with i j
      rw [Fin.sum_univ_one, readB.value_corner, Subsingleton.elim j 0]
    next =>
      have read := reads_products readA readB
      rw [if_pos (readA.cols.trans readB.rows.symm)]
      exact ⟨_, read.checked, read⟩

theorem Reads.add {A B : Matrix α} {F G : Fin m → Fin n → β}
    (readA : A.Reads ν F) (readB : B.Reads ν G) :
    ∃ C, A.add d B = .ok C ∧ C.Reads ν fun i j => F i j + G i j := by
  have hr : A.rows = B.rows := readA.rows.trans readB.rows.symm
  have hc : A.cols = B.cols := readA.cols.trans readB.cols.symm
  have cells (a b : α) (ha : a ∈ d) (hb : b ∈ d) :
      addCell d a b ∈ d ∧ ν.value (addCell d a b) = ν.value a + ν.value b := by
    unfold addCell
    split
    next empty => exact ⟨hb, by rw [(ν.isZero_iff ha).mp empty, zero_add]⟩
    next =>
      split
      next empty => exact ⟨ha, by rw [(ν.isZero_iff hb).mp empty, add_zero]⟩
      next => exact ⟨ν.add_mem ha hb, ν.value_add ha hb⟩
  have read : (zipWith (addCell d) A B hr hc).Reads ν fun i j => F i j + G i j := by
    refine ⟨readA.rows, readA.cols, ?_, ?_⟩
    · intro i j
      rw [cell_zipWith (addCell d) A B hr hc i j]
      exact (cells _ _ (readA.mem _ _) (readB.mem _ _)).1
    · intro i j
      have cell := cell_zipWith (addCell d) A B hr hc (i.cast readA.rows.symm)
        (j.cast readA.cols.symm)
      refine (congrArg ν.value cell).trans ?_
      rw [(cells _ _ (readA.mem _ _) (readB.mem _ _)).2, readA.value]
      exact congrArg (F i j + ·) (readB.value i j)
  rw [Matrix.add, dif_pos ⟨hr, hc⟩]
  exact ⟨_, read.checked, read⟩

end Matrix

end TropicalAlgebra
