import TropicalAlgebra.Error

/-!
# Matrices

Dense matrices with at least one row and one column. The shape is part of the data, since shapes
are compared while a program runs; that the cells fill the shape is part of the type. A matrix is
read through `get?`, and two matrices with the same reading are equal (`ext_get?`).
-/

namespace TropicalAlgebra

/-- A matrix of positive dimensions, stored row by row. -/
structure Matrix (α : Type) where
  rows : Nat
  cols : Nat
  cells : Vector (Vector α cols) rows
  rows_pos : 0 < rows
  cols_pos : 0 < cols
  deriving DecidableEq

namespace Matrix

variable {α β : Type}

def shape (M : Matrix α) : Shape := ⟨M.rows, M.cols⟩

def cell (M : Matrix α) (i : Fin M.rows) (j : Fin M.cols) : α := M.cells[i.val][j.val]

def corner (M : Matrix α) : α := M.cell ⟨0, M.rows_pos⟩ ⟨0, M.cols_pos⟩

/-- The cell at `(i, j)`, if the matrix has one there. -/
def get? (M : Matrix α) (i j : Nat) : Option α :=
  if h : i < M.rows ∧ j < M.cols then some (M.cell ⟨i, h.1⟩ ⟨j, h.2⟩) else none

def ofFn (rows cols : Nat) (rows_pos : 0 < rows) (cols_pos : 0 < cols)
    (f : Fin rows → Fin cols → α) : Matrix α :=
  ⟨rows, cols, Vector.ofFn fun i => Vector.ofFn fun j => f i j, rows_pos, cols_pos⟩

/-- The matrix with these rows. -/
def ofVectors {m n : Nat} (rows : Vector (Vector α (n + 1)) (m + 1)) : Matrix α :=
  ⟨m + 1, n + 1, rows, Nat.succ_pos m, Nat.succ_pos n⟩

/-! ## Reading -/

section Reading

variable {rows cols : Nat} {rows_pos : 0 < rows} {cols_pos : 0 < cols} {f : Fin rows → Fin cols → α}

@[simp] theorem rows_ofFn : (ofFn rows cols rows_pos cols_pos f).rows = rows := rfl

@[simp] theorem cols_ofFn : (ofFn rows cols rows_pos cols_pos f).cols = cols := rfl

@[simp] theorem cell_ofFn (i : Fin rows) (j : Fin cols) :
    (ofFn rows cols rows_pos cols_pos f).cell i j = f i j := by
  simp [cell, ofFn]

end Reading

theorem get?_eq_some (M : Matrix α) (i : Fin M.rows) (j : Fin M.cols) :
    M.get? i j = some (M.cell i j) := by
  simp [get?]

theorem isSome_get?_iff (M : Matrix α) (i j : Nat) :
    (M.get? i j).isSome ↔ i < M.rows ∧ j < M.cols := by
  by_cases h : i < M.rows ∧ j < M.cols <;> simp [get?, h]

theorem ext_cell {M N : Matrix α} (hr : M.rows = N.rows) (hc : M.cols = N.cols)
    (h : ∀ i j, M.cell i j = N.cell (i.cast hr) (j.cast hc)) : M = N := by
  obtain ⟨r, c, a, hr', hc'⟩ := M
  obtain ⟨r', c', b, _, _⟩ := N
  obtain rfl : r = r' := hr
  obtain rfl : c = c' := hc
  congr
  apply Vector.ext
  intro i hi
  apply Vector.ext
  intro j hj
  exact h ⟨i, hi⟩ ⟨j, hj⟩

/-- A matrix is determined by its reading, shape included. -/
theorem ext_get? {M N : Matrix α} (h : ∀ i j, M.get? i j = N.get? i j) : M = N := by
  have same : ∀ i j, (i < M.rows ∧ j < M.cols) ↔ (i < N.rows ∧ j < N.cols) := by
    intro i j
    rw [← isSome_get?_iff, ← isSome_get?_iff, h]
  have rows_eq : M.rows = N.rows := by
    have low := (same (M.rows - 1) 0).mp ⟨by have := M.rows_pos; omega, M.cols_pos⟩
    have high := (same (N.rows - 1) 0).mpr ⟨by have := N.rows_pos; omega, N.cols_pos⟩
    omega
  have cols_eq : M.cols = N.cols := by
    have low := (same 0 (M.cols - 1)).mp ⟨M.rows_pos, by have := M.cols_pos; omega⟩
    have high := (same 0 (N.cols - 1)).mpr ⟨N.rows_pos, by have := N.cols_pos; omega⟩
    omega
  apply ext_cell rows_eq cols_eq
  intro i j
  have read := h i j
  rw [get?_eq_some] at read
  have other := N.get?_eq_some (i.cast rows_eq) (j.cast cols_eq)
  simp only [Fin.val_cast] at other
  rw [other] at read
  exact Option.some.inj read

/-! ## Rows, columns and the list of all cells -/

def row (M : Matrix α) (i : Fin M.rows) : List α := M.cells[i].toList

def column (M : Matrix α) (j : Fin M.cols) : List α := M.cells.toList.map (·[j])

def rowLists (M : Matrix α) : List (List α) := M.cells.toList.map Vector.toList

/-- All cells, row by row. -/
def toList (M : Matrix α) : List α := M.rowLists.flatten

@[simp] theorem length_row (M : Matrix α) (i : Fin M.rows) : (M.row i).length = M.cols := by
  simp [row]

@[simp] theorem length_column (M : Matrix α) (j : Fin M.cols) :
    (M.column j).length = M.rows := by
  simp [column]

theorem row_eq_ofFn (M : Matrix α) (i : Fin M.rows) : M.row i = List.ofFn (M.cell i) := by
  apply List.ext_getElem (by simp)
  intro j hj hj'
  simp [row, cell]

theorem column_eq_ofFn (M : Matrix α) (j : Fin M.cols) :
    M.column j = List.ofFn fun i => M.cell i j := by
  apply List.ext_getElem (by simp)
  intro i hi hi'
  simp [column, cell]

/-- Every cell is listed, and nothing else. -/
theorem mem_toList {M : Matrix α} {a : α} : a ∈ M.toList ↔ ∃ i j, M.cell i j = a := by
  simp only [toList, rowLists, List.mem_flatten, List.mem_map]
  constructor
  · rintro ⟨_, ⟨v, hv, rfl⟩, ha⟩
    rw [Vector.mem_toList_iff] at hv ha
    obtain ⟨i, hi, rfl⟩ := Vector.mem_iff_getElem.mp hv
    obtain ⟨j, hj, rfl⟩ := Vector.mem_iff_getElem.mp ha
    exact ⟨⟨i, hi⟩, ⟨j, hj⟩, rfl⟩
  · rintro ⟨i, j, rfl⟩
    exact ⟨M.cells[i].toList, ⟨M.cells[i], by simp, rfl⟩, by simp [cell]⟩

/-! ## Building -/

/-- A matrix from a rule for its cells, provided that the dimensions are positive. -/
def generate (rows cols : Nat) (f : Nat → Nat → α) : Outcome α (Matrix α) :=
  if h : 0 < rows ∧ 0 < cols then .ok (ofFn rows cols h.1 h.2 fun i j => f i j)
  else .error (.shape (.empty ⟨rows, cols⟩))

theorem offset_lt {rows cols i j : Nat} (hi : i < rows) (hj : j < cols) :
    i * cols + j < rows * cols := by
  calc i * cols + j < i * cols + cols := by omega
    _ = (i + 1) * cols := (Nat.succ_mul i cols).symm
    _ ≤ rows * cols := Nat.mul_le_mul_right cols hi

/-- A matrix from its cells, row by row. -/
def ofList (rows cols : Nat) (data : List α) : Outcome α (Matrix α) :=
  let cells := data.toArray
  if h : 0 < rows ∧ 0 < cols then
    if fits : cells.size = rows * cols then
      .ok (ofFn rows cols h.1 h.2 fun i j =>
        have := offset_lt i.isLt j.isLt
        cells[i.val * cols + j.val])
    else .error (.shape (.cellCount ⟨rows, cols⟩ cells.size))
  else .error (.shape (.empty ⟨rows, cols⟩))

/-- The first row whose length is not `cols`, with its length. -/
def raggedRow? (cols : Nat) (rows : List (List α)) : Option (Nat × Nat) :=
  (rows.zipIdx.find? fun r => r.1.length != cols).map fun r => (r.2, r.1.length)

/-- A matrix from its rows, which need to be equally long. -/
def ofRows (rows : List (List α)) : Outcome α (Matrix α) :=
  let cols := (rows.head?.map List.length).getD 0
  match raggedRow? cols rows with
  | some (i, count) => .error (.shape (.ragged i count cols))
  | none => ofList rows.length cols rows.flatten

def columnVector (values : List α) : Outcome α (Matrix α) := ofList values.length 1 values

def rowVector (values : List α) : Outcome α (Matrix α) := ofList 1 values.length values

def singleton (value : α) : Matrix α := ofFn 1 1 Nat.one_pos Nat.one_pos fun _ _ => value

def filled (rows cols : Nat) (value : α) : Outcome α (Matrix α) :=
  generate rows cols fun _ _ => value

/-! ## Access by position -/

/-- The cell at `(i, j)`, or the position that is missing. -/
def index (M : Matrix α) (i j : Nat) : Except OutOfBounds α :=
  match M.get? i j with
  | some a => .ok a
  | none => .error (.cell i j M.shape)

/-- The number of values of a machine word. Positions in the list of all cells are words. -/
def wordSize : Nat := UInt64.size

/-- The entries of row `i`, or the row that is missing. The first and the last position of the row
are computed without a look at the number of rows, and a carry is dropped. -/
def rowAt (M : Matrix α) (i : Nat) : Except OutOfBounds (List α) :=
  let start := i * M.cols % wordSize
  let stop := (i + 1) % wordSize * M.cols % wordSize
  if start ≤ stop ∧ stop ≤ M.toList.length then .ok ((M.toList.take stop).drop start)
  else .error (.row i)

/-- The entries of column `j`, or the column that is missing. -/
def columnAt (M : Matrix α) (j : Nat) : Except OutOfBounds (List α) :=
  if h : j < M.cols then .ok (M.column ⟨j, h⟩) else .error (.column j)

def withElement (M : Matrix α) (i j : Nat) (value : α) : Outcome α (Matrix α) :=
  if i < M.rows ∧ j < M.cols then
    .ok (ofFn M.rows M.cols M.rows_pos M.cols_pos fun r c =>
      if r.val = i ∧ c.val = j then value else M.cell r c)
  else .error (.shape (.outOfBounds (.cell i j M.shape)))

/-! ## Rearranging and combining -/

def transpose (M : Matrix α) : Matrix α :=
  ofFn M.cols M.rows M.cols_pos M.rows_pos fun j i => M.cell i j

@[simp] theorem cell_transpose (M : Matrix α) (j : Fin M.cols) (i : Fin M.rows) :
    M.transpose.cell j i = M.cell i j := cell_ofFn j i

def map (f : α → β) (M : Matrix α) : Matrix β :=
  ofFn M.rows M.cols M.rows_pos M.cols_pos fun i j => f (M.cell i j)

@[simp] theorem cell_map (f : α → β) (M : Matrix α) (i : Fin M.rows) (j : Fin M.cols) :
    (M.map f).cell i j = f (M.cell i j) := cell_ofFn i j

theorem get?_map (f : α → β) (M : Matrix α) (i j : Nat) :
    (M.map f).get? i j = (M.get? i j).map f := by
  unfold get?
  by_cases inside : i < M.rows ∧ j < M.cols
  · rw [dif_pos inside]
    refine (dif_pos inside).trans ?_
    exact congrArg some (cell_map f M ⟨i, inside.1⟩ ⟨j, inside.2⟩)
  · rw [dif_neg inside]
    exact dif_neg inside

/-- Apply `f` to the matching cells of two matrices of one shape. -/
def zipWith (f : α → α → β) (A B : Matrix α) (hr : A.rows = B.rows) (hc : A.cols = B.cols) :
    Matrix β :=
  ofFn A.rows A.cols A.rows_pos A.cols_pos fun i j =>
    f (A.cell i j) (B.cell (i.cast hr) (j.cast hc))

@[simp] theorem cell_zipWith (f : α → α → β) (A B : Matrix α) (hr : A.rows = B.rows)
    (hc : A.cols = B.cols) (i : Fin A.rows) (j : Fin A.cols) :
    (zipWith f A B hr hc).cell i j = f (A.cell i j) (B.cell (i.cast hr) (j.cast hc)) :=
  cell_ofFn i j

/-- The cells in which the row and the column have the same number. -/
def diagonal (M : Matrix α) : List α :=
  List.ofFn fun i : Fin (min M.rows M.cols) =>
    M.cell ⟨i, by omega⟩ ⟨i, by omega⟩

/-! ## Special shapes -/

def isScalar (M : Matrix α) : Bool := M.rows == 1 && M.cols == 1

def isVector (M : Matrix α) : Bool := M.rows == 1 || M.cols == 1

def isSquare (M : Matrix α) : Bool := M.rows == M.cols

end Matrix

end TropicalAlgebra
