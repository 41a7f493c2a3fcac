import TropicalAlgebra.Matrix.Text
import TropicalAlgebra.Proofs.Matrix.Shapes
import TropicalAlgebra.Proofs.Storage.Cells

/-!
# Arithmetic on stored cells

Sums and multiples work on the lists of cells without a look at positions, so they rely on lists
that fit the dimensions. Products and pseudo-inverses compute positions, and only a product can have
more cells than a word can count although its factors do not. Otherwise each operation does on the
stored forms of matrices what it does on the matrices.
-/

namespace TropicalAlgebra

open Access
open TropicalAlgebra.Matrix (wordSize HeldIn HeldAs)

variable {α : Type}

namespace Matrix

theorem toList_map {β : Type} (f : α → β) (M : Matrix α) : (M.map f).toList = M.toList.map f := by
  simp only [toList_eq_ofFn, List.map_ofFn]
  exact congrArg List.ofFn (funext fun k => cell_map f M _ _)

theorem toList_zipWith (f : α → α → α) {A B : Matrix α} (hr : A.rows = B.rows)
    (hc : A.cols = B.cols) :
    (zipWith f A B hr hc).toList = List.zipWith f A.toList B.toList := by
  obtain ⟨rows, cols, a, hm, hn⟩ := A
  obtain ⟨rows', cols', b, hm', hn'⟩ := B
  obtain rfl : rows = rows' := hr
  obtain rfl : cols = cols' := hc
  simp only [toList_eq_ofFn]
  refine List.ext_getElem (by simp [zipWith]) fun k hk hk' => ?_
  rw [List.getElem_ofFn, List.getElem_zipWith, List.getElem_ofFn, List.getElem_ofFn]
  exact cell_zipWith f _ _ _ _ _ _

theorem HeldIn.isScalar {M : Matrix α} {S : Stored α} (held : M.HeldIn S) :
    S.isScalar = M.isScalar := by
  rw [held.stored]
  rfl

/-- The number of cells that a product of two matrices computes: none if one factor is a single
cell, or if the product is refused. -/
def productCells (A B : Matrix α) : Nat :=
  if ¬ A.isScalar ∧ ¬ B.isScalar ∧ A.cols = B.rows then A.rows * B.cols else 0

theorem productCells_lt {A B : Matrix α} (fits : A.rows * B.cols < wordSize) :
    A.productCells B < wordSize := by
  unfold productCells
  split
  · exact fits
  · exact wordSize_pos

end Matrix

namespace Stored

variable (w : Overflow) (d : Dioid α)

def validate (S : Stored α) : Access α Unit :=
  match S.data.find? fun a => !d.contains a with
  | some a => .error (.refused (d.domainError a))
  | none => .ok ()

/-- Cells of which every one has been accepted. -/
def checked (S : Stored α) : Access α (Stored α) := do
  S.validate d
  pure S

def pseudoInverse (S : Stored α) : Access α (Stored α) := do
  let T ← S.transpose w
  pure ⟨T.rows, T.cols, T.data.map d.inv⟩

/-- The shapes agree and `rel` holds of all matching cells. -/
def all₂ (rel : α → α → Bool) (A B : Stored α) : Bool :=
  A.shape == B.shape && (A.data.zip B.data).all fun cells => rel cells.1 cells.2

section Held

variable {w} {M : Matrix α} {S : Stored α} {m n : Nat}

theorem renders_validate (held : M.HeldIn S) :
    Renders (fun _ _ => True) (S.validate d) (M.validate d) := by
  obtain ⟨rfl, -⟩ := held
  unfold validate Matrix.validate
  rw [Matrix.data_stored]
  cases M.toList.find? fun a => !d.contains a with
  | some a => exact .refused _
  | none => exact .ok trivial

theorem renders_checked (held : M.HeldAs m n S) :
    Renders (HeldAs m n) (S.checked d) (M.checked d) :=
  (renders_validate d held.toHeldIn).bind fun _ => .ok held

theorem renders_pseudoInverse (held : M.HeldAs m n S) :
    Renders (HeldAs n m) (S.pseudoInverse w d) (.ok (M.pseudoInverse d)) := by
  refine (renders_transpose held).bind_ok fun {T} turned => ?_
  obtain ⟨⟨rfl, fits⟩, rows, cols⟩ := turned
  refine .ok ⟨⟨?_, fits⟩, rows, cols⟩
  rw [Matrix.pseudoInverse, Matrix.stored.eq_def (.map ..), Matrix.toList_map]
  rfl

theorem renders_corner (held : M.HeldIn S) :
    Renders (· = ·) (S.index w 0 0) (.ok M.corner) := by
  obtain ⟨rfl, fits⟩ := held
  rw [show M.stored.index w 0 0 = .ok M.corner from
    index_stored fits ⟨0, M.rows_pos⟩ ⟨0, M.cols_pos⟩]
  exact .ok rfl

end Held

/-! ### Constant matrices -/

def identity (size : Nat) : Access α (Stored α) :=
  generate w size size fun i j => .ok (Matrix.identityCell d i j)

def zeros (rows cols : Nat) : Access α (Stored α) := filled w rows cols d.zero

def ones (size : Nat) : Access α (Stored α) := filled w size 1 d.one

section Constant

variable {w} {rows cols size : Nat}

theorem renders_identity (fits : size * size < wordSize) :
    Renders (HeldAs size size) (identity w d size) (Matrix.identity d size) :=
  renders_generate fits fun _ _ _ _ => rfl

theorem renders_identityOfPos (fits : size * size < wordSize) (pos : 0 < size) :
    Renders (HeldAs size size) (identity w d size) (.ok (Matrix.identityOfPos d size pos)) := by
  have made := renders_identity (w := w) d fits
  rwa [show Matrix.identity d size = .ok (Matrix.identityOfPos d size pos) from
    dif_pos ⟨pos, pos⟩] at made

theorem renders_zeros (fits : rows * cols < wordSize) :
    Renders (HeldAs rows cols) (zeros w d rows cols) (Matrix.zeros d rows cols) :=
  renders_filled d.zero fits

theorem renders_ones (fits : size < wordSize) :
    Renders (HeldAs size 1) (ones w d size) (Matrix.ones d size) :=
  renders_filled d.one (by rwa [Nat.mul_one])

end Constant

/-! ### Operations -/

variable [Scalar α]

def scale (S : Stored α) (scalar : α) : Access α (Stored α) := do
  let scalar ← of (d.element scalar)
  if d.isZero scalar then
    let size ← word w (S.rows * S.cols)
    pure ⟨S.rows, S.cols, List.replicate size d.zero⟩
  else checked d ⟨S.rows, S.cols, S.data.map (Matrix.scaleCell d scalar)⟩

/-- The cells of the product of two matrices whose inner dimensions agree, row by row. -/
def products (A B : Stored α) : Access α (List α) := do
  let size ← word w (A.rows * B.cols)
  (List.range size).mapM fun k => do
    let left ← A.row w (k / B.cols)
    let right ← (List.range A.cols).mapM fun c => B.entry w c (k % B.cols)
    pure (d.dot left right)

def mul (A B : Stored α) : Access α (Stored α) := do
  if A.isScalar then B.scale w d (← A.index w 0 0)
  else if B.isScalar then A.scale w d (← B.index w 0 0)
  else if A.cols = B.rows then checked d ⟨A.rows, B.cols, ← A.products w d B⟩
  else .error (.refused (.shape (.mismatch .product A.shape B.shape)))

def add (A B : Stored α) : Access α (Stored α) :=
  if A.rows = B.rows ∧ A.cols = B.cols then
    checked d ⟨A.rows, A.cols, List.zipWith (Matrix.addCell d) A.data B.data⟩
  else .error (.refused (.shape (.mismatch .sum A.shape B.shape)))

variable {w} {A B M : Matrix α} {S T : Stored α} {k m n : Nat}

theorem renders_scale (held : M.HeldAs m n S) (scalar : α) :
    Renders (HeldAs m n) (S.scale w d scalar) (M.scale d scalar) := by
  obtain ⟨⟨rfl, fits⟩, rows, cols⟩ := held
  refine (Renders.of (d.element scalar)).bind fun {a _} same => ?_
  subst same
  by_cases zero : d.isZero a
  · have zeros : (⟨M.rows, M.cols, List.replicate (M.rows * M.cols) d.zero⟩ : Stored α) =
        (M.map fun _ => d.zero).stored := by
      rw [Matrix.stored, Matrix.toList_map, List.map_const', Matrix.length_toList]
      rfl
    simp only [zero, if_true, Matrix.rows_stored, Matrix.cols_stored, word_of_lt fits, ok_bind,
      zeros]
    exact .ok ⟨⟨rfl, fits⟩, rows, cols⟩
  · have multiples : (⟨M.rows, M.cols, M.toList.map (Matrix.scaleCell d a)⟩ : Stored α) =
        (M.map (Matrix.scaleCell d a)).stored := by
      rw [Matrix.stored, Matrix.toList_map]
      rfl
    simp only [zero, if_false, Matrix.rows_stored, Matrix.cols_stored, Matrix.data_stored,
      multiples, Bool.false_eq_true]
    exact renders_checked d ⟨⟨rfl, fits⟩, rows, cols⟩

/-- Row `i` of `A` and column `j` of `B` have one length, and all positions of both exist. -/
theorem products_stored (fitsA : A.rows * A.cols < wordSize) (fitsB : B.rows * B.cols < wordSize)
    (inner : A.cols = B.rows) (fits : A.rows * B.cols < wordSize) :
    A.stored.products w d B.stored = .ok (A.products d B).toList := by
  have column (j : Fin B.cols) :
      (List.range A.cols).mapM (fun c => B.stored.entry w c j) = .ok (B.column j) := by
    rw [inner, ← column_stored fitsB]
    exact (if_pos j.isLt).symm
  have cell (k : Fin (A.rows * B.cols)) : (do
      let left ← A.stored.row w (k / B.cols)
      let right ← (List.range A.cols).mapM fun c => B.stored.entry w c (k % B.cols)
      pure (d.dot left right)) = .ok (d.dot (A.row k.divNat) (B.column k.modNat)) := by
    have left := row_stored (w := w) fitsA k.divNat
    have right := column k.modNat
    rw [Fin.coe_divNat] at left
    rw [Fin.coe_modNat] at right
    simp only [left, right, ok_bind, pure_eq_ok]
  rw [products, Matrix.rows_stored, Matrix.cols_stored, word_of_lt fits, ok_bind, Matrix.products,
    Matrix.toList_ofFn, Matrix.flatten_ofFn]
  exact mapM_range cell

theorem renders_mul (heldA : A.HeldIn S) (heldB : B.HeldIn T)
    (fits : A.productCells B < wordSize) :
    Renders HeldIn (S.mul w d T) (A.mul d B) := by
  unfold mul Matrix.mul
  rw [heldA.isScalar, heldB.isScalar]
  -- a multiple has the shape of the other factor, so only a proper product needs room
  by_cases left : A.isScalar
  · rw [if_pos left, if_pos left]
    refine (renders_corner heldA).bind_ok fun same => ?_
    exact same ▸ (renders_scale d heldB.sized _).mono HeldAs.toHeldIn
  rw [if_neg left, if_neg left]
  by_cases right : B.isScalar
  · rw [if_pos right, if_pos right]
    refine (renders_corner heldB).bind_ok fun same => ?_
    exact same ▸ (renders_scale d heldA.sized _).mono HeldAs.toHeldIn
  rw [if_neg right, if_neg right]
  obtain ⟨rfl, fitsA⟩ := heldA
  obtain ⟨rfl, fitsB⟩ := heldB
  by_cases inner : A.cols = B.rows
  · rw [Matrix.productCells, if_pos ⟨left, right, inner⟩] at fits
    simp only [Matrix.cols_stored, Matrix.rows_stored, inner, if_true,
      products_stored d fitsA fitsB inner fits, ok_bind]
    exact (renders_checked d ⟨⟨rfl, fits⟩, rfl, rfl⟩).mono HeldAs.toHeldIn
  · simp only [Matrix.cols_stored, Matrix.rows_stored, inner, if_false]
    exact .refused _

theorem mul_stops (heldA : A.HeldIn S) (heldB : B.HeldIn T)
    (large : wordSize ≤ A.productCells B) : S.mul .stops d T = .error .overflow := by
  unfold Matrix.productCells at large
  split at large
  next proper =>
    obtain ⟨left, right, inner⟩ := proper
    rw [mul, heldA.isScalar, heldB.isScalar]
    obtain ⟨rfl, -⟩ := heldA
    obtain ⟨rfl, -⟩ := heldB
    rw [if_neg left, if_neg right, if_pos (show A.stored.cols = B.stored.rows from inner), products, Matrix.rows_stored,
      Matrix.cols_stored, word_stops large, error_bind, error_bind]
  next => exact absurd (wordSize_pos.trans_le large) (Nat.lt_irrefl 0)

/-- A product whose inner dimensions agree. -/
theorem renders_product (heldA : A.HeldAs m k S) (heldB : B.HeldAs k n T)
    (fits : m * n < wordSize) : Renders (HeldAs m n) (S.mul w d T) (A.mul d B) := by
  have inner : A.cols = B.rows := heldA.cols.trans heldB.rows.symm
  have counted : A.productCells B < wordSize := by
    apply Matrix.productCells_lt
    rwa [heldA.rows, heldB.cols]
  refine ((renders_mul d heldA.toHeldIn heldB.toHeldIn counted).and_ok fun _ computed =>
    Matrix.shape_mul inner computed).mono ?_
  rintro C U ⟨held, shape⟩
  have rows : C.rows = A.rows := congrArg Shape.rows shape
  have cols : C.cols = B.cols := congrArg Shape.cols shape
  exact ⟨held, rows.trans heldA.rows, cols.trans heldB.cols⟩

theorem renders_add (heldA : A.HeldAs m n S) (heldB : B.HeldIn T) :
    Renders (HeldAs m n) (S.add d T) (A.add d B) := by
  obtain ⟨⟨rfl, fits⟩, rows, cols⟩ := heldA
  obtain ⟨rfl, -⟩ := heldB
  unfold add Matrix.add
  by_cases same : A.rows = B.rows ∧ A.cols = B.cols
  · have cells : (⟨A.rows, A.cols, List.zipWith (Matrix.addCell d) A.toList B.toList⟩ : Stored α) =
        (Matrix.zipWith (Matrix.addCell d) A B same.1 same.2).stored := by
      rw [Matrix.stored, Matrix.toList_zipWith]
      rfl
    rw [dif_pos same, if_pos (show A.stored.rows = B.stored.rows ∧ A.stored.cols = B.stored.cols
      from same), Matrix.rows_stored, Matrix.cols_stored, Matrix.data_stored, Matrix.data_stored,
      cells]
    exact renders_checked d ⟨⟨rfl, fits⟩, rows, cols⟩
  · simp only [Matrix.rows_stored, Matrix.cols_stored, same, if_false, dite_false]
    exact .refused _

end Stored

end TropicalAlgebra
