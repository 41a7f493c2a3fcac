import TropicalAlgebra.Proofs.Closure.Settling

/-!
# Entries of a matrix

A matrix is read at all pairs of numbers, as zero outside its shape. Under the laws that survive
rounding, the entries of a sum and of a product of stored matrices are sums and products of entries.
-/

namespace TropicalAlgebra

/-- The dioid whose products a square matrix of that size forms. A single cell is multiplied as a
scalar, hence from the other side. -/
def Dioid.sided {α : Type} (d : Dioid α) (size : Nat) : Dioid α := if size = 1 then d.flip else d

namespace Dioid.Distributive

variable {α : Type} [Scalar α] {d : Dioid α} {factors terms : Set α}

theorem sided (law : d.Distributive factors terms) (size : Nat) :
    (d.sided size).Distributive factors terms := by
  unfold Dioid.sided
  split
  · exact law.flip
  · exact law

theorem le_sided (_ : d.Distributive factors terms) (size : Nat) :
    (d.sided size).le = d.le := by
  unfold Dioid.sided
  split <;> rfl

end Dioid.Distributive

namespace Matrix

section Entry

variable {α : Type} {d : Dioid α} {M : Matrix α}

/-- The cell at `(i, j)`, or zero if there is none. -/
def entry (d : Dioid α) (M : Matrix α) (i j : Nat) : α := (M.get? i j).getD d.zero

theorem entry_cell (i : Fin M.rows) (j : Fin M.cols) : M.entry d i j = M.cell i j := by
  rw [entry, get?_eq_some, Option.getD_some]

theorem entry_cast {m k : Nat} (i : Fin m) (j : Fin k) (hr : m = M.rows) (hc : k = M.cols) :
    M.entry d i j = M.cell (i.cast hr) (j.cast hc) :=
  entry_cell (i.cast hr) (j.cast hc)

theorem entry_of_outside {i j : Nat} (outside : ¬ (i < M.rows ∧ j < M.cols)) :
    M.entry d i j = d.zero := by
  rw [entry, get?, dif_neg outside, Option.getD_none]

theorem getElem_zip_row_column {A B : Matrix α} {i : Fin A.rows} {j : Fin B.cols} {c : Nat}
    (h : c < ((A.row i).zip (B.column j)).length) :
    ((A.row i).zip (B.column j))[c] = (A.entry d i c, B.entry d c j) := by
  have bounds : c < A.cols ∧ c < B.rows := by simpa using h
  have left : A.entry d i c = A.cell i ⟨c, bounds.1⟩ := entry_cell i ⟨c, bounds.1⟩
  have right : B.entry d c j = B.cell ⟨c, bounds.2⟩ j := entry_cell ⟨c, bounds.2⟩ j
  simp [row_eq_ofFn, column_eq_ofFn, left, right]

end Entry

/-- An `n × n` matrix of factors. -/
structure Factors {α : Type} (factors : Set α) (n : Nat) (M : Matrix α) : Prop where
  rows : M.rows = n
  cols : M.cols = n
  members : ∀ a ∈ M.toList, a ∈ factors

namespace Factors

variable {α : Type} {d : Dioid α} {factors : Set α} {n : Nat} {M : Matrix α}

theorem cell_mem (square : M.Factors factors n) (i : Fin M.rows) (j : Fin M.cols) :
    M.cell i j ∈ factors :=
  square.members _ (mem_toList.mpr ⟨i, j, rfl⟩)

theorem entry_outside (square : M.Factors factors n) {i j : Nat} (outside : ¬ (i < n ∧ j < n)) :
    M.entry d i j = d.zero :=
  entry_of_outside (by rwa [square.rows, square.cols])

/-- The entries are cells or zero. -/
theorem entry_cases (square : M.Factors factors n) (d : Dioid α) (i j : Nat) :
    (∃ i' j', M.entry d i j = M.cell i' j' ∧ i'.val = i ∧ j'.val = j) ∨
      ¬ (i < n ∧ j < n) ∧ M.entry d i j = d.zero := by
  by_cases inside : i < n ∧ j < n
  · have hi : i < M.rows := by rw [square.rows]; exact inside.1
    have hj : j < M.cols := by rw [square.cols]; exact inside.2
    have entry : M.entry d i j = M.cell ⟨i, hi⟩ ⟨j, hj⟩ := entry_cell ⟨i, hi⟩ ⟨j, hj⟩
    exact Or.inl ⟨⟨i, hi⟩, ⟨j, hj⟩, entry, rfl, rfl⟩
  · exact Or.inr ⟨inside, square.entry_outside inside⟩

theorem row_mem (square : M.Factors factors n) (i : Fin M.rows) : ∀ a ∈ M.row i, a ∈ factors := by
  rw [row_eq_ofFn]
  intro a ha
  obtain ⟨c, rfl⟩ := (List.mem_ofFn' _ _).mp ha
  exact square.cell_mem _ _

theorem column_mem (square : M.Factors factors n) (j : Fin M.cols) :
    ∀ a ∈ M.column j, a ∈ factors := by
  rw [column_eq_ofFn]
  intro a ha
  obtain ⟨c, rfl⟩ := (List.mem_ofFn' _ _).mp ha
  exact square.cell_mem _ _

theorem isScalar_iff (square : M.Factors factors n) : M.isScalar = true ↔ n = 1 := by
  simp [isScalar, square.rows, square.cols]

theorem corner_mem (square : M.Factors factors n) : M.corner ∈ factors := square.cell_mem _ _

/-- The entries outside are zero. -/
theorem entry_mem_of_zero (square : M.Factors factors n) (zero : d.zero ∈ factors) (i j : Nat) :
    M.entry d i j ∈ factors := by
  rcases square.entry_cases d i j with ⟨i', j', entry, -, -⟩ | ⟨-, entry⟩
  · rw [entry]
    exact square.cell_mem i' j'
  · rw [entry]
    exact zero

variable [Scalar α] {terms : Set α} {A B C : Matrix α}

theorem entry_mem (square : M.Factors factors n) (law : d.Distributive factors terms)
    (i j : Nat) : M.entry d i j ∈ factors :=
  square.entry_mem_of_zero law.zero_factor i j

theorem entry_term (square : M.Factors factors n) (law : d.Distributive factors terms)
    (i j : Nat) : M.entry d i j ∈ terms :=
  law.factor_term (square.entry_mem law i j)

/-- Square matrices of factors are equal if they lie below each other. -/
theorem beq_iff (law : d.Distributive factors terms) (squareA : A.Factors factors n)
    (squareB : B.Factors factors n) :
    (A == B) = true ↔
      ∀ i j, d.le (A.entry d i j) (B.entry d i j) ∧ d.le (B.entry d i j) (A.entry d i j) := by
  have hr : A.rows = B.rows := squareA.rows.trans squareB.rows.symm
  have hc : A.cols = B.cols := squareA.cols.trans squareB.cols.symm
  rw [Matrix.beq_iff]
  constructor
  · rintro ⟨_, _, cells⟩ i j
    have left := squareA.entry_term law i j
    have right := squareB.entry_term law i j
    have same : A.entry d i j == B.entry d i j := by
      rcases squareA.entry_cases d i j with ⟨i', j', entry, rfl, rfl⟩ | ⟨outside, entry⟩
      · rw [entry, entry_cast i' j' hr hc]
        exact cells i' j'
      · rw [entry, squareB.entry_outside outside]
        exact law.isZero_zero
    exact ⟨law.joins.le_of_beq left right same,
      law.joins.le_of_beq right left (law.symm left right same)⟩
  · intro below
    refine ⟨hr, hc, fun i j => ?_⟩
    have same : A.entry d i j == B.entry d i j :=
      law.joins.le_antisymm (squareA.entry_term law i j) (squareB.entry_term law i j) (below i j).1
        (below i j).2
    rwa [entry_cell, entry_cast i j hr hc] at same

/-- Equality of scalars is what the order leaves undecided. -/
theorem orderEq_iff (law : d.Distributive factors terms) (squareA : A.Factors factors n)
    (squareB : B.Factors factors n) : A.orderEq B = true ↔ (A == B) = true := by
  rw [orderEq, all₂_iff, Matrix.beq_iff]
  refine exists_congr fun hr => exists_congr fun hc => forall₂_congr fun i j => ?_
  exact law.orderEq_iff (law.factor_term (squareA.cell_mem i j))
    (law.factor_term (squareB.cell_mem _ _))

theorem of_checked (law : d.Distributive factors terms) (accepted : M.checked d = .ok C)
    (rows : M.rows = n) (cols : M.cols = n) : M = C ∧ C.Factors factors n := by
  obtain ⟨elements, rfl⟩ := (checked_eq_ok_iff d).mp accepted
  exact ⟨rfl, rows, cols, fun a ha => law.element_factor (elements a ha)⟩

theorem add (law : d.Distributive factors terms) (squareA : A.Factors factors n)
    (squareB : B.Factors factors n) (computed : A.add d B = .ok C) :
    C.Factors factors n ∧ (law.sided n).IsSum (A.entry d) (B.entry d) (C.entry d) := by
  have hr : A.rows = B.rows := squareA.rows.trans squareB.rows.symm
  have hc : A.cols = B.cols := squareA.cols.trans squareB.cols.symm
  rw [Matrix.add, dif_pos ⟨hr, hc⟩] at computed
  obtain ⟨rfl, squareC⟩ := of_checked law computed squareA.rows squareA.cols
  refine ⟨squareC, fun i j x hx => ?_⟩
  rw [law.le_sided n]
  have left := squareA.entry_term law i j
  have right := squareB.entry_term law i j
  rcases squareA.entry_cases d i j with ⟨i', j', entry, rfl, rfl⟩ | ⟨outside, entry⟩
  · have sum : (zipWith (addCell d) A B hr hc).entry d i' j' =
        addCell d (A.entry d i' j') (B.entry d i' j') := by
      rw [entry, entry_cast i' j' hr hc, ← cell_zipWith (addCell d) A B hr hc i' j']
      exact entry_cell _ _
    rw [sum]
    exact law.addCell_le_iff left right hx
  · rw [squareC.entry_outside outside, entry, squareB.entry_outside outside]
    simp [law.le_of_isZero law.zero_term hx law.isZero_zero]

theorem exists_add (law : d.Distributive d.elements terms) (squareA : A.Factors d.elements n)
    (squareB : B.Factors d.elements n) : ∃ C, A.add d B = .ok C := by
  have hr : A.rows = B.rows := squareA.rows.trans squareB.rows.symm
  have hc : A.cols = B.cols := squareA.cols.trans squareB.cols.symm
  rw [Matrix.add, dif_pos ⟨hr, hc⟩]
  refine ⟨_, (checked_eq_ok_iff d).mpr ⟨fun a ha => ?_, rfl⟩⟩
  obtain ⟨i, j, rfl⟩ := mem_toList.mp ha
  have left : A.cell i j ∈ d.elements := squareA.cell_mem i j
  have right : B.cell (i.cast hr) (j.cast hc) ∈ d.elements := squareB.cell_mem _ _
  rw [cell_zipWith (addCell d) A B hr hc i j, addCell]
  split
  · exact right
  · split
    · exact left
    · exact law.add_factor left right

end Factors

end Matrix

end TropicalAlgebra
