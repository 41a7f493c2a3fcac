import TropicalAlgebra.Proofs.Matrix.FromLists
import TropicalAlgebra.Proofs.Storage.Access

/-!
# Matrices stored row by row

A matrix is stored as two dimensions and a list of cells, where the cell at `(i, j)` stands at
position `i * cols + j`. Nothing in the stored form ties the list to the dimensions. The operations
compute positions, in words. If a word can count the cells, each operation does on the stored form
of a matrix what it does on the matrix. If it cannot, a build that stops at overflow stops.
-/

namespace TropicalAlgebra

open Access
open TropicalAlgebra.Matrix (wordSize)

/-- The dimensions of a matrix and a list of cells, which need not fit each other. -/
structure Stored (α : Type) where
  rows : Nat
  cols : Nat
  data : List α
  deriving DecidableEq

variable {α : Type}

namespace Matrix

/-- The stored form of a matrix. -/
def stored (M : Matrix α) : Stored α := ⟨M.rows, M.cols, M.toList⟩

/-- A matrix is held in its stored form if a word can count its cells. -/
structure HeldIn (M : Matrix α) (S : Stored α) : Prop where
  stored : S = M.stored
  fits : M.rows * M.cols < wordSize

/-- The same for a matrix with `m` rows and `n` columns. -/
structure HeldAs (m n : Nat) (M : Matrix α) (S : Stored α) : Prop extends M.HeldIn S where
  rows : M.rows = m
  cols : M.cols = n

variable {m n : Nat} {M : Matrix α} {S : Stored α}

theorem HeldIn.sized (held : M.HeldIn S) : M.HeldAs M.rows M.cols S := ⟨held, rfl, rfl⟩

theorem HeldAs.fits_shape (held : M.HeldAs m n S) : m * n < wordSize := by
  obtain ⟨⟨-, fits⟩, rfl, rfl⟩ := held
  exact fits

theorem HeldAs.rows_lt (held : M.HeldAs m n S) : m < wordSize := by
  have pos : 0 < n := held.cols ▸ M.cols_pos
  exact (Nat.le_mul_of_pos_right m pos).trans_lt held.fits_shape

theorem HeldAs.cols_lt (held : M.HeldAs m n S) : n < wordSize := by
  have pos : 0 < m := held.rows ▸ M.rows_pos
  exact (Nat.le_mul_of_pos_left n pos).trans_lt held.fits_shape

@[simp] theorem rows_stored (M : Matrix α) : M.stored.rows = M.rows := rfl

@[simp] theorem cols_stored (M : Matrix α) : M.stored.cols = M.cols := rfl

@[simp] theorem data_stored (M : Matrix α) : M.stored.data = M.toList := rfl

theorem toList_ofFn (hm : 0 < m) (hn : 0 < n) (f : Fin m → Fin n → α) :
    (ofFn m n hm hn f).toList = (List.ofFn fun i => List.ofFn (f i)).flatten := by
  simp [toList, rowLists, ofFn, Vector.toList_ofFn, List.map_ofFn, Function.comp_def]

/-- The list of all cells, by position. -/
theorem toList_eq_ofFn (M : Matrix α) :
    M.toList = List.ofFn fun k : Fin (M.rows * M.cols) => M.cell k.divNat k.modNat := by
  have rebuilt : M = ofFn M.rows M.cols M.rows_pos M.cols_pos M.cell :=
    ext_cell rfl rfl fun i j => (cell_ofFn i j).symm
  rw [← flatten_ofFn, ← toList_ofFn M.rows_pos M.cols_pos, ← rebuilt]

@[simp] theorem length_toList (M : Matrix α) : M.toList.length = M.rows * M.cols := by
  rw [toList_eq_ofFn, List.length_ofFn]

theorem getElem_toList (M : Matrix α) (i : Fin M.rows) (j : Fin M.cols)
    (h : i * M.cols + j < M.toList.length) : M.toList[i * M.cols + j] = M.cell i j := by
  have bound := offset_lt i.isLt j.isLt
  simp only [toList_eq_ofFn, List.getElem_ofFn, divNat_offset i j bound, modNat_offset i j bound]

/-- Reading the position of a cell finds the cell. -/
theorem read_toList (M : Matrix α) (i : Fin M.rows) (j : Fin M.cols) :
    (read M.toList (i * M.cols + j) : Access α α) = .ok (M.cell i j) := by
  have bound : i * M.cols + j < M.toList.length := by
    rw [length_toList]
    exact offset_lt i.isLt j.isLt
  rw [read_of_lt bound, getElem_toList]

end Matrix

namespace Stored

/-! ### Building -/

section Building

variable (w : Overflow)

/-- A matrix from its cells, row by row. -/
def ofList (rows cols : Nat) (data : List α) : Access α (Stored α) :=
  if 0 < rows ∧ 0 < cols then do
    let size ← word w (rows * cols)
    if data.length = size then .ok ⟨rows, cols, data⟩
    else .error (.refused (.shape (.cellCount ⟨rows, cols⟩ data.length)))
  else .error (.refused (.shape (.empty ⟨rows, cols⟩)))

/-- The number of cells of a list of rows, if these are as long as the first. -/
def laidOut (rows : List (List α)) : Nat := rows.length * (rows.head?.map List.length).getD 0

def ofRows (rows : List (List α)) : Access α (Stored α) := do
  -- room for the cells is made before the rows are looked at
  let _ ← word w (laidOut rows)
  let cols := (rows.head?.map List.length).getD 0
  match Matrix.raggedRow? cols rows with
  | some (i, count) => .error (.refused (.shape (.ragged i count cols)))
  | none => ofList w rows.length cols rows.flatten

def columnVector (values : List α) : Access α (Stored α) := ofList w values.length 1 values

def rowVector (values : List α) : Access α (Stored α) := ofList w 1 values.length values

def singleton (value : α) : Stored α := ⟨1, 1, [value]⟩

def filled (rows cols : Nat) (value : α) : Access α (Stored α) := do
  let size ← word w (rows * cols)
  ofList w rows cols (List.replicate size value)

/-- A matrix from a computation for its cells. -/
def generate (rows cols : Nat) (f : Nat → Nat → Access α α) : Access α (Stored α) := do
  let _ ← word w (rows * cols)
  let data ← rectangle rows cols f
  ofList w rows cols data

variable {w} {rows cols : Nat}

theorem renders_ofList (data : List α) (fits : rows * cols < wordSize) :
    Renders (Matrix.HeldAs rows cols) (ofList w rows cols data) (Matrix.ofList rows cols data) := by
  by_cases positive : 0 < rows ∧ 0 < cols
  · by_cases length : data.length = rows * cols
    · obtain ⟨g, rfl⟩ : ∃ g : Fin (rows * cols) → α, data = List.ofFn g :=
        ⟨_, (List.ofFn_get data).symm.trans (List.ofFn_congr length data.get)⟩
      simp only [ofList, positive, length, word_of_lt fits, ok_bind, and_self, if_true,
        Matrix.ofList_ofFn positive.1 positive.2]
      refine .ok ⟨⟨?_, fits⟩, rfl, rfl⟩
      simp only [Matrix.stored, Matrix.toList_ofFn, Matrix.flatten_ofFn, Fin.coe_divNat,
        Fin.coe_modNat, Nat.div_add_mod']
      rfl
    · simp only [ofList, Matrix.ofList, positive, word_of_lt fits, ok_bind, List.size_toArray,
        length, and_self, if_true, if_false, dite_true, dite_false]
      exact .refused _
  · simp only [ofList, Matrix.ofList, positive, if_false, dite_false]
    exact .refused _

theorem ofList_stops (data : List α) (large : wordSize ≤ rows * cols) :
    ofList .stops rows cols data = .error .overflow := by
  have positive : 0 < rows ∧ 0 < cols := by
    have counted : 0 < rows * cols := wordSize_pos.trans_le large
    simpa only [Nat.pos_iff_ne_zero, Nat.mul_ne_zero_iff] using counted
  rw [ofList, if_pos positive, word_stops large, error_bind]

theorem renders_ofRows (rows : List (List α)) (fits : laidOut rows < wordSize) :
    Renders Matrix.HeldIn (ofRows w rows) (Matrix.ofRows rows) := by
  unfold ofRows Matrix.ofRows
  rw [word_of_lt fits, ok_bind]
  cases ragged : Matrix.raggedRow? ((rows.head?.map List.length).getD 0) rows with
  | none =>
    simp only [ragged]
    exact (renders_ofList _ fits).mono Matrix.HeldAs.toHeldIn
  | some r =>
    simp only [ragged]
    exact .refused _

theorem ofRows_stops (rows : List (List α)) (large : wordSize ≤ laidOut rows) :
    ofRows .stops rows = .error .overflow := by
  rw [ofRows, word_stops large, error_bind]

theorem renders_columnVector (values : List α) (fits : values.length < wordSize) :
    Renders (Matrix.HeldAs values.length 1) (columnVector w values) (Matrix.columnVector values) :=
  renders_ofList values (by rwa [Nat.mul_one])

theorem renders_rowVector (values : List α) (fits : values.length < wordSize) :
    Renders (Matrix.HeldAs 1 values.length) (rowVector w values) (Matrix.rowVector values) :=
  renders_ofList values (by rwa [Nat.one_mul])

theorem heldIn_singleton (value : α) : (Matrix.singleton value).HeldIn (singleton value) where
  stored := by simp [singleton, Matrix.stored, Matrix.singleton, Matrix.toList_ofFn]
  fits := one_lt_wordSize

/-- Cells that are computed one by one fill the matrix. -/
theorem renders_generate {f : Nat → Nat → Access α α} {g : Nat → Nat → α}
    (fits : rows * cols < wordSize) (each : ∀ i < rows, ∀ j < cols, f i j = .ok (g i j)) :
    Renders (Matrix.HeldAs rows cols) (generate w rows cols f) (Matrix.generate rows cols g) := by
  have cells := rectangle_eq_ok fun (i : Fin rows) (j : Fin cols) => each i i.isLt j j.isLt
  rw [generate, word_of_lt fits, ok_bind, cells, ok_bind]
  by_cases positive : 0 < rows ∧ 0 < cols
  · simp only [ofList, Matrix.generate, positive, word_of_lt fits, ok_bind, Matrix.flatten_ofFn,
      List.length_ofFn, and_self, if_true, dite_true]
    refine .ok ⟨⟨?_, fits⟩, rfl, rfl⟩
    rw [Matrix.stored, Matrix.toList_ofFn, Matrix.flatten_ofFn]
    rfl
  · simp only [ofList, Matrix.generate, positive, if_false, dite_false]
    exact .refused _

theorem generate_stops (f : Nat → Nat → Access α α) (large : wordSize ≤ rows * cols) :
    generate .stops rows cols f = .error .overflow := by
  rw [generate, word_stops large, error_bind]

theorem renders_filled (value : α) (fits : rows * cols < wordSize) :
    Renders (Matrix.HeldAs rows cols) (filled w rows cols value)
      (Matrix.filled rows cols value) := by
  rw [filled, word_of_lt fits, ok_bind]
  by_cases positive : 0 < rows ∧ 0 < cols
  · simp only [ofList, Matrix.filled, Matrix.generate, positive, word_of_lt fits, ok_bind,
      List.length_replicate, and_self, if_true, dite_true]
    refine .ok ⟨⟨?_, fits⟩, rfl, rfl⟩
    simp [Matrix.stored, Matrix.toList_ofFn]
  · simp only [ofList, Matrix.filled, Matrix.generate, positive, if_false, dite_false]
    exact .refused _

theorem filled_stops (value : α) (large : wordSize ≤ rows * cols) :
    filled .stops rows cols value = .error .overflow := by
  rw [filled, word_stops large, error_bind]

end Building

/-! ### Reading -/

variable (w : Overflow) (S : Stored α)

def shape : Shape := ⟨S.rows, S.cols⟩

/-- The entry at the position of `(i, j)`, without a look at the dimensions. -/
def entry (i j : Nat) : Access α α := do
  let k ← position w i S.cols j
  read S.data k

/-- The cell at `(i, j)`, if the matrix has one there. -/
def get? (i j : Nat) : Access α (Option α) :=
  if i < S.rows ∧ j < S.cols then some <$> S.entry w i j else .ok none

/-- The cell at `(i, j)`, which has to be there. -/
def index (i j : Nat) : Access α α :=
  if i < S.rows ∧ j < S.cols then S.entry w i j else .error .outOfRange

def row (i : Nat) : Access α (List α) := do
  let start ← word w (i * S.cols)
  let next ← word w (i + 1)
  let stop ← word w (next * S.cols)
  slice S.data start stop

def column (j : Nat) : Access α (List α) :=
  if j < S.cols then (List.range S.rows).mapM fun i => S.entry w i j else .error .outOfRange

/-- The rows from first to last, as they are printed. -/
def lines : Access α (List (List α)) := (List.range S.rows).mapM (S.row w)

variable (M : Matrix α)

theorem index_outside {i j : Nat} (outside : ¬ (i < S.rows ∧ j < S.cols)) :
    S.index w i j = .error .outOfRange := if_neg outside

theorem column_outside {j : Nat} (outside : ¬ j < S.cols) : S.column w j = .error .outOfRange :=
  if_neg outside

section Fits

variable {w} {M} (fits : M.rows * M.cols < wordSize)

include fits

theorem entry_stored (i : Fin M.rows) (j : Fin M.cols) :
    M.stored.entry w i j = .ok (M.cell i j) := by
  simp [entry, position_of_lt i.isLt j.isLt fits, M.read_toList]

theorem get?_stored (i j : Nat) : M.stored.get? w i j = .ok (M.get? i j) := by
  by_cases inside : i < M.rows ∧ j < M.cols
  · simp [get?, Matrix.get?, inside, entry_stored fits ⟨i, inside.1⟩ ⟨j, inside.2⟩]
  · simp [get?, Matrix.get?, inside]

theorem index_stored (i : Fin M.rows) (j : Fin M.cols) :
    M.stored.index w i j = .ok (M.cell i j) := by
  simp [index, entry_stored fits i j]

theorem row_stored (i : Fin M.rows) : M.stored.row w i = .ok (M.row i) := by
  have width : (i + 1) * M.cols = i * M.cols + M.cols := Nat.succ_mul _ _
  have stop : (i + 1) * M.cols ≤ M.rows * M.cols := Nat.mul_le_mul_right _ i.isLt
  -- the first and the last position and the number of the next row are at most the number of cells
  have next : i.val + 1 ≤ (i + 1) * M.cols := Nat.le_mul_of_pos_right _ M.cols_pos
  have entries : (M.toList.take ((i + 1) * M.cols)).drop (i * M.cols) = M.row i := by
    refine List.ext_getElem ?_ fun j hj hj' => ?_
    · rw [List.length_drop, List.length_take_of_le (M.length_toList.symm ▸ stop), Matrix.length_row]
      omega
    · rw [Matrix.length_row] at hj'
      rw [List.getElem_drop, List.getElem_take, M.getElem_toList i ⟨j, hj'⟩]
      simp [Matrix.row_eq_ofFn]
  rw [row, Matrix.cols_stored, word_of_lt (by omega), ok_bind, word_of_lt (by omega), ok_bind,
    word_of_lt (by omega), ok_bind, ← entries]
  exact if_pos ⟨by omega, M.length_toList.symm ▸ stop⟩

omit fits in
/-- Rows are not empty, so one that is not there would end beyond the last cell. -/
theorem row_outside {i : Nat} (outside : M.rows ≤ i) (xs : List α) :
    M.stored.row .stops i ≠ .ok xs := by
  have beyond : M.rows * M.cols < (i + 1) * M.cols :=
    Nat.mul_lt_mul_of_pos_right (Nat.lt_succ_of_le outside) M.cols_pos
  intro found
  obtain ⟨start, _, found⟩ := bind_eq_ok_iff.mp found
  obtain ⟨next, succ, found⟩ := bind_eq_ok_iff.mp found
  obtain ⟨stop, last, found⟩ := bind_eq_ok_iff.mp found
  obtain rfl := eq_of_word_stops succ
  obtain rfl := eq_of_word_stops last
  have inside := le_length_of_slice found
  rw [Matrix.data_stored, Matrix.length_toList, Matrix.cols_stored] at inside
  omega

theorem column_stored (j : Fin M.cols) : M.stored.column w j = .ok (M.column j) := by
  have entries : (List.range M.rows).mapM (fun i => M.stored.entry w i j) =
      .ok (List.ofFn fun i => M.cell i j) :=
    mapM_range fun i => entry_stored fits i j
  rw [Matrix.column_eq_ofFn, ← entries]
  exact if_pos j.isLt

theorem lines_stored : M.stored.lines w = .ok M.rowLists := by
  have rows : M.rowLists = List.ofFn M.row := by
    refine List.ext_getElem (by simp [Matrix.rowLists]) fun i hi hi' => ?_
    simp [Matrix.rowLists, Matrix.row]
  rw [rows]
  exact mapM_range (row_stored fits)

end Fits

/-- What a carry that is dropped leaves of a row: the entries from a wrapped position on, as long
as they are there. -/
theorem row_wraps_iff {M : Matrix α} (fits : M.rows * M.cols < wordSize) (i : Nat) (xs : List α) :
    M.stored.row .wraps i = .ok xs ↔
      i * M.cols % wordSize + M.cols ≤ M.toList.length ∧
        xs = (M.toList.drop (i * M.cols % wordSize)).take M.cols := by
  have width : M.cols ≤ M.rows * M.cols := Nat.le_mul_of_pos_left _ M.rows_pos
  have start : i * M.cols % wordSize < wordSize := Nat.mod_lt _ wordSize_pos
  have stop : (i + 1) % wordSize * M.cols % wordSize =
      (i * M.cols % wordSize + M.cols) % wordSize := by
    rw [Nat.mod_mul_mod, Nat.succ_mul, Nat.mod_add_mod]
  rw [row, Matrix.cols_stored, word_wraps, ok_bind, word_wraps, ok_bind, word_wraps, ok_bind, stop,
    slice, Matrix.data_stored, Matrix.length_toList]
  generalize i * M.cols % wordSize = first at start
  by_cases inside : first + M.cols ≤ M.rows * M.cols
  · rw [Nat.mod_eq_of_lt (by omega), if_pos ⟨Nat.le_add_right _ _, inside⟩, List.drop_take,
      Nat.add_sub_cancel_left]
    simp [inside, eq_comm]
  · -- the end is beyond the last cell, or it has wrapped and lies before the start
    have refused : ¬ (first ≤ (first + M.cols) % wordSize ∧
        (first + M.cols) % wordSize ≤ M.rows * M.cols) := by
      simp only [wordSize, UInt64.size] at *
      omega
    simp [refused, inside]

/-! ### Rearranging -/

def withElement (i j : Nat) (value : α) : Access α (Stored α) :=
  if i < S.rows ∧ j < S.cols then do
    let k ← position w i S.cols j
    let data ← write S.data k value
    pure ⟨S.rows, S.cols, data⟩
  else .error (.refused (.shape (.outOfBounds (.cell i j S.shape))))

def transpose : Access α (Stored α) := do
  let data ← rectangle S.cols S.rows fun j i => S.entry w i j
  pure ⟨S.cols, S.rows, data⟩

/-- The diagonal of a square matrix. -/
def diagonal : Access α (List α) := (List.range S.rows).mapM fun i => S.index w i i

def isScalar : Bool := S.rows == 1 && S.cols == 1

def isSquare : Bool := S.rows == S.cols

section Fits

variable {w} {S} {M} {m n : Nat}

theorem renders_withElement (held : M.HeldAs m n S) (i j : Nat) (value : α) :
    Renders (Matrix.HeldAs m n) (S.withElement w i j value) (M.withElement i j value) := by
  obtain ⟨⟨rfl, fits⟩, rfl, rfl⟩ := held
  by_cases inside : i < M.rows ∧ j < M.cols
  · have bound : i * M.cols + j < M.toList.length := by
      rw [Matrix.length_toList]
      exact Matrix.offset_lt inside.1 inside.2
    -- the position is that of the cell at `(i, j)` and of no other one
    have unique (k : Nat) : i * M.cols + j = k ↔ k / M.cols = i ∧ k % M.cols = j := by
      rw [Nat.div_mod_unique M.cols_pos, Nat.add_comm j, Nat.mul_comm M.cols]
      exact (and_iff_left inside.2).symm
    have cells : M.toList.set (i * M.cols + j) value =
        (Matrix.ofFn M.rows M.cols M.rows_pos M.cols_pos fun r c =>
          if r.val = i ∧ c.val = j then value else M.cell r c).toList := by
      rw [Matrix.toList_ofFn, Matrix.flatten_ofFn]
      refine List.ext_getElem (by simp) fun k hk hk' => ?_
      simp only [List.getElem_set, unique, Matrix.toList_eq_ofFn, List.getElem_ofFn,
        Fin.coe_divNat, Fin.coe_modNat]
      congr
    simp only [withElement, Matrix.withElement, Matrix.rows_stored, Matrix.cols_stored, inside,
      and_self, if_true, position_of_lt inside.1 inside.2 fits, ok_bind, Matrix.data_stored,
      write_of_lt bound, cells]
    exact .ok ⟨⟨rfl, fits⟩, rfl, rfl⟩
  · simp only [withElement, Matrix.withElement, Matrix.rows_stored, Matrix.cols_stored, inside,
      if_false]
    exact .refused _

theorem transpose_stored (fits : M.rows * M.cols < wordSize) :
    M.stored.transpose w = .ok M.transpose.stored := by
  have cells : rectangle M.cols M.rows (fun j i => M.stored.entry w i j) =
      .ok M.transpose.toList := by
    rw [Matrix.transpose, Matrix.toList_ofFn]
    exact rectangle_eq_ok fun j i => entry_stored fits i j
  simp only [transpose, Matrix.rows_stored, Matrix.cols_stored, cells, ok_bind]
  rfl

theorem renders_transpose (held : M.HeldAs m n S) :
    Renders (Matrix.HeldAs n m) (S.transpose w) (.ok M.transpose) := by
  obtain ⟨⟨rfl, fits⟩, rfl, rfl⟩ := held
  rw [transpose_stored fits]
  exact .ok ⟨⟨rfl, Nat.mul_comm M.rows M.cols ▸ fits⟩, rfl, rfl⟩

theorem renders_diagonal (held : M.HeldAs n n S) :
    Renders (· = ·) (S.diagonal w) (.ok M.diagonal) := by
  obtain ⟨⟨rfl, fits⟩, rows, cols⟩ := held
  have same : M.rows = M.cols := rows.trans cols.symm
  have entries : (List.range M.rows).mapM (fun i => M.stored.index w i i) =
      .ok (List.ofFn fun i => M.cell i (i.cast same)) :=
    mapM_range fun i => index_stored fits i (i.cast same)
  have cells : M.diagonal = List.ofFn fun i => M.cell i (i.cast same) := by
    refine List.ext_getElem (by simp [Matrix.diagonal, same]) fun i hi hi' => ?_
    simp [Matrix.diagonal]
  rw [diagonal, Matrix.rows_stored, entries, cells]
  exact .ok rfl

end Fits

/-! ### Shape -/

/-- Both dimensions are positive, and there is one cell for each position. -/
structure WellShaped (S : Stored α) : Prop where
  rows_pos : 0 < S.rows
  cols_pos : 0 < S.cols
  length_data : S.data.length = S.rows * S.cols

/-- A build that drops carries takes as many cells as the wrapped product of the dimensions says.
They fill the matrix only if nothing was dropped. -/
theorem wellShaped_wraps_iff {rows cols : Nat} {data : List α} {S : Stored α}
    (built : ofList .wraps rows cols data = .ok S) : S.WellShaped ↔ rows * cols < wordSize := by
  by_cases positive : 0 < rows ∧ 0 < cols
  · rw [ofList, if_pos positive, word_wraps, ok_bind] at built
    by_cases length : data.length = rows * cols % wordSize
    · rw [if_pos length] at built
      obtain rfl := Except.ok.inj built
      constructor
      · intro shaped
        rw [← shaped.length_data, length]
        exact Nat.mod_lt _ wordSize_pos
      · intro fits
        rw [Nat.mod_eq_of_lt fits] at length
        exact ⟨positive.1, positive.2, length⟩
    · rw [if_neg length] at built
      exact nomatch built
  · rw [ofList, if_neg positive] at built
    exact nomatch built

/-- Cells and columns are found exactly in range, rows as well in a build that stops at overflow,
and all find the same cells. A build that drops carries finds further rows: those whose first
position wraps to one that has enough cells after it. -/
structure Readable (S : Stored α) : Prop where
  get? (w : Overflow) (i j : Nat) :
    (∃ a, S.get? w i j = .ok (some a)) ↔ i < S.rows ∧ j < S.cols
  get?_outside (w : Overflow) (i j : Nat) :
    ¬ (i < S.rows ∧ j < S.cols) → S.get? w i j = .ok none
  index (w : Overflow) (i j : Nat) : (∃ a, S.index w i j = .ok a) ↔ i < S.rows ∧ j < S.cols
  column (w : Overflow) (j : Nat) : (∃ xs, S.column w j = .ok xs) ↔ j < S.cols
  row (i : Nat) : (∃ xs, S.row .stops i = .ok xs) ↔ i < S.rows
  row_wraps (i : Nat) (xs : List α) : S.row .wraps i = .ok xs ↔
    i * S.cols % wordSize + S.cols ≤ S.data.length ∧
      xs = (S.data.drop (i * S.cols % wordSize)).take S.cols
  agree (w : Overflow) {i j : Nat} {a : α} : S.index w i j = .ok a →
    S.get? w i j = .ok (some a) ∧
    (∃ xs, S.row w i = .ok xs ∧ xs.length = S.cols ∧ xs[j]? = some a) ∧
    ∃ xs, S.column w j = .ok xs ∧ xs.length = S.rows ∧ xs[i]? = some a

/-- Reading stored cells finds what reading a matrix finds, where a build that drops carries reads
the rows. -/
structure ReadsAs (S : Stored α) (M : Matrix α) : Prop where
  shape : S.shape = M.shape
  get? (w : Overflow) (i j : Nat) : S.get? w i j = .ok (M.get? i j)
  index (w : Overflow) (i j : Nat) (a : α) : S.index w i j = .ok a ↔ M.index i j = .ok a
  row (i : Nat) (xs : List α) : S.row .wraps i = .ok xs ↔ M.rowAt i = .ok xs
  column (w : Overflow) (j : Nat) (xs : List α) :
    S.column w j = .ok xs ↔ M.columnAt j = .ok xs

end Stored

namespace Matrix.HeldIn

open Stored

variable {M : Matrix α} {S : Stored α}

theorem wellShaped (held : M.HeldIn S) : S.WellShaped := by
  obtain rfl := held.stored
  exact ⟨M.rows_pos, M.cols_pos, M.length_toList⟩

theorem readsAs (held : M.HeldIn S) : S.ReadsAs M := by
  obtain ⟨rfl, fits⟩ := held
  exact {
    shape := rfl
    get? w := get?_stored fits
    index w i j a := by
      by_cases inside : i < M.rows ∧ j < M.cols
      · rw [index_stored fits ⟨i, inside.1⟩ ⟨j, inside.2⟩]
        simp [Matrix.index, Matrix.get?, inside]
      · rw [index_outside w _ inside]
        simp [Matrix.index, Matrix.get?, inside]
    row i xs := by
      rw [Stored.row, word_wraps, ok_bind, word_wraps, ok_bind, word_wraps, ok_bind, slice]
      unfold Matrix.rowAt
      by_cases inside : i * M.cols % wordSize ≤ (i + 1) % wordSize * M.cols % wordSize ∧
          (i + 1) % wordSize * M.cols % wordSize ≤ M.toList.length
      · simp only [Matrix.cols_stored, Matrix.data_stored, inside, and_self, if_true,
          Except.ok.injEq]
      · simp only [Matrix.cols_stored, Matrix.data_stored, inside, if_false, reduceCtorEq]
    column w j xs := by
      by_cases inside : j < M.cols
      · rw [column_stored fits ⟨j, inside⟩]
        simp [Matrix.columnAt, inside]
      · rw [column_outside w _ inside]
        simp [Matrix.columnAt, inside] }

theorem readable (held : M.HeldIn S) : S.Readable := by
  obtain ⟨rfl, fits⟩ := held
  exact {
    get? w i j := by
      simp [get?_stored fits, ← Matrix.isSome_get?_iff, Option.isSome_iff_exists]
    get?_outside w i j outside := if_neg outside
    index w i j := by
      by_cases inside : i < M.rows ∧ j < M.cols
      · simp [index_stored fits ⟨i, inside.1⟩ ⟨j, inside.2⟩, inside]
      · simp [index_outside w M.stored inside, inside]
    column w j := by
      by_cases inside : j < M.cols
      · simp [column_stored fits ⟨j, inside⟩, inside]
      · simp [column_outside w M.stored inside, inside]
    row i := by
      by_cases inside : i < M.rows
      · simp [row_stored fits ⟨i, inside⟩, inside]
      · simp [row_outside (Nat.le_of_not_lt inside), inside]
    row_wraps := row_wraps_iff fits
    agree w i j a found := by
      by_cases inside : i < M.rows ∧ j < M.cols
      · obtain ⟨hi, hj⟩ := inside
        obtain rfl := Except.ok.inj ((index_stored fits ⟨i, hi⟩ ⟨j, hj⟩).symm.trans found)
        refine ⟨?_, ⟨_, row_stored fits ⟨i, hi⟩, M.length_row _, ?_⟩,
          ⟨_, column_stored fits ⟨j, hj⟩, M.length_column _, ?_⟩⟩
        · rw [get?_stored fits]
          exact congrArg _ (M.get?_eq_some ⟨i, hi⟩ ⟨j, hj⟩)
        · simp [Matrix.row_eq_ofFn, hj]
        · simp [Matrix.column_eq_ofFn, hi]
      · exact nomatch (index_outside w M.stored inside).symm.trans found }

end Matrix.HeldIn

end TropicalAlgebra
