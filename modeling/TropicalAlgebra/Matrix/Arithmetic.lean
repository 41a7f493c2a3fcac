import TropicalAlgebra.Dioid
import TropicalAlgebra.Matrix

/-!
# Matrix arithmetic over a dioid

Sum, product, multiples and pseudo-inverse of matrices whose cells are elements of a dioid. Each
operation that computes cells refuses a result with a cell outside the dioid. A matrix with a single
cell takes part in a product as a scalar, whatever the shape of the other factor.

Over a dioid with inverses, the inequality `A ⊗ x ≤ b` has a greatest solution, and it has a closed
form in the pseudo-inverse. Moving that solution by half of a gap puts `A ⊗ x` half above and half
below `b`, which makes the largest deviation as small as it can be.
-/

namespace TropicalAlgebra

namespace Matrix

variable {α : Type}

def requireSquare (M : Matrix α) : Outcome α Unit :=
  require M.isSquare (.shape (.notSquare M.shape))

section Domain

variable (d : Dioid α)

/-- The transpose with every cell inverted; zero cells stay zero. -/
def pseudoInverse (M : Matrix α) : Matrix α := M.transpose.map d.inv

@[simp] theorem cell_pseudoInverse (M : Matrix α) (j : Fin M.cols) (i : Fin M.rows) :
    (M.pseudoInverse d).cell j i = d.inv (M.cell i j) :=
  (cell_map d.inv M.transpose j i).trans (congrArg d.inv (cell_transpose M j i))

/-- Accept a matrix if all its cells are elements; the first that is not is reported. -/
def validate (M : Matrix α) : Outcome α Unit :=
  match M.toList.find? fun a => !d.contains a with
  | some a => .error (d.domainError a)
  | none => .ok ()

/-- A matrix of which every cell has been accepted. -/
def checked (M : Matrix α) : Outcome α (Matrix α) := do
  M.validate d
  pure M

theorem validate_eq_ok_iff {M : Matrix α} : M.validate d = .ok () ↔ ∀ a ∈ M.toList, a ∈ d := by
  unfold validate
  split
  next a found =>
    have member := List.mem_of_find?_eq_some found
    have outside := List.find?_some found
    simp only [reduceCtorEq, false_iff]
    intro all
    simp [(d.mem_iff_contains a).mp (all a member)] at outside
  next none_found =>
    simp only [List.find?_eq_none, Bool.not_eq_true', Bool.not_eq_false] at none_found
    simpa [Dioid.mem_iff_contains] using none_found

theorem validate_bind_eq_ok_iff {β : Type} {M : Matrix α} {next : Unit → Outcome α β} {b : β} :
    M.validate d >>= next = .ok b ↔ (∀ a ∈ M.toList, a ∈ d) ∧ next () = .ok b := by
  rw [← validate_eq_ok_iff]
  cases M.validate d <;> simp [bind, Except.bind]

theorem checked_eq_ok_iff {M N : Matrix α} :
    M.checked d = .ok N ↔ (∀ a ∈ M.toList, a ∈ d) ∧ M = N := by
  rw [← validate_eq_ok_iff]
  unfold checked
  cases M.validate d <;> simp [bind, Except.bind, pure, Except.pure]

end Domain

variable [Scalar α] (d : Dioid α)

/-! ## Constant matrices -/

/-- The cell at `(i, j)` of an identity matrix. -/
def identityCell (i j : Nat) : α := if i = j then d.one else d.zero

def identityOfPos (size : Nat) (pos : 0 < size) : Matrix α :=
  ofFn size size pos pos fun i j => identityCell d i j

def identity (size : Nat) : Outcome α (Matrix α) := generate size size (identityCell d)

def zeros (rows cols : Nat) : Outcome α (Matrix α) := filled rows cols d.zero

def ones (size : Nat) : Outcome α (Matrix α) := filled size 1 d.one

omit [Scalar α] in
theorem ones_of_pos {size : Nat} (pos : 0 < size) :
    ones d size = .ok (ofFn size 1 pos Nat.one_pos fun _ _ => d.one) :=
  dif_pos ⟨pos, Nat.one_pos⟩

/-! ## Operations -/

/-- A cell times a scalar other than zero; a zero cell stays as it is. -/
def scaleCell (scalar a : α) : α := if d.isZero a then a else d.mul a scalar

def scale (M : Matrix α) (scalar : α) : Outcome α (Matrix α) := do
  let scalar ← d.element scalar
  if d.isZero scalar then pure (M.map fun _ => d.zero)
  else (M.map (scaleCell d scalar)).checked d

/-- The cells of the product of two matrices whose inner dimensions agree. -/
def products (A B : Matrix α) : Matrix α :=
  ofFn A.rows B.cols A.rows_pos B.cols_pos fun i j => d.dot (A.row i) (B.column j)

/-- The product of two matrices, or the multiple of one if the other has a single cell. -/
def mul (A B : Matrix α) : Outcome α (Matrix α) :=
  -- single cells come first, since they go with every shape
  if A.isScalar then B.scale d A.corner
  else if B.isScalar then A.scale d B.corner
  else if A.cols = B.rows then (products d A B).checked d
  else .error (.shape (.mismatch .product A.shape B.shape))

/-- The sum of two cells; a zero cell gives way to the other one. -/
def addCell (a b : α) : α :=
  if d.isZero a then b else if d.isZero b then a else d.add a b

/-- The sum of two matrices of one shape, cell by cell. -/
def add (A B : Matrix α) : Outcome α (Matrix α) :=
  if h : A.rows = B.rows ∧ A.cols = B.cols then (zipWith (addCell d) A B h.1 h.2).checked d
  else .error (.shape (.mismatch .sum A.shape B.shape))

/-! ## Residuation -/

/-- The greatest `x` with `A ⊗ x ≤ b`. -/
def subsolution (A b : Matrix α) : Outcome α (Matrix α) := do
  let product ← (b.pseudoInverse d).mul d A
  pure (product.pseudoInverse d)

/-- The multiple of `x` by the square root of `gap`. -/
def centred (x : Matrix α) (gap : α) : Outcome α (Matrix α) := do
  let half ← d.pow gap (Scalar.ofRatio 1 2)
  x.scale d half

end Matrix

end TropicalAlgebra
