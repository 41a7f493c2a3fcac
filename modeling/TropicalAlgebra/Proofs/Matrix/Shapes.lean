import TropicalAlgebra.Matrix.Arithmetic

/-!
# Shapes of results

A product whose inner dimensions agree has the shape that they call for, although a single cell is
multiplied without a look at shapes. So operations on matrices that fit can go wrong in one way
only: a scalar turns up that is not an element.
-/

namespace TropicalAlgebra

variable {α : Type}

/-- A computation that ends with a result of which `P` holds, or refuses a scalar that is not an
element. It has no other errors. -/
inductive Dioid.Safe (d : Dioid α) {β : Type} (P : β → Prop) : Outcome α β → Prop
  | ok {b : β} (holds : P b) : Safe d P (.ok b)
  | refuses (a : α) : Safe d P (.error (d.domainError a))

/-- An `m × n` matrix of elements. -/
structure Matrix.Over (d : Dioid α) (m n : Nat) (M : Matrix α) : Prop where
  rows : M.rows = m
  cols : M.cols = n
  elements : ∀ a ∈ M.toList, a ∈ d

theorem Matrix.Over.shape {d : Dioid α} {m n : Nat} {M : Matrix α} (sized : M.Over d m n) :
    M.shape = ⟨m, n⟩ := by
  rw [Matrix.shape, sized.rows, sized.cols]

theorem Matrix.Over.corner {d : Dioid α} {m n : Nat} {M : Matrix α} (sized : M.Over d m n) :
    M.corner ∈ d :=
  sized.elements _ (mem_toList.mpr ⟨_, _, rfl⟩)

theorem Matrix.index_corner (M : Matrix α) : M.index 0 0 = .ok M.corner := by
  have found := M.get?_eq_some ⟨0, M.rows_pos⟩ ⟨0, M.cols_pos⟩
  rw [index, found]
  rfl

variable {d : Dioid α}

namespace Dioid

namespace Safe

variable {β γ : Type} {P P' : β → Prop} {Q : γ → Prop} {x : Outcome α β}

theorem bind {next : β → Outcome α γ} (first : d.Safe P x)
    (rest : ∀ {b}, P b → d.Safe Q (next b)) : d.Safe Q (x >>= next) := by
  cases first with
  | ok holds => exact rest holds
  | refuses a => exact .refuses a

theorem mono (safe : d.Safe P x) (weaker : ∀ {b}, P b → P' b) : d.Safe P' x := by
  cases safe with
  | ok holds => exact .ok (weaker holds)
  | refuses a => exact .refuses a

theorem holds {b : β} (safe : d.Safe P x) (returned : x = .ok b) : P b := by
  cases safe with
  | ok holds => exact Except.ok.inj returned ▸ holds
  | refuses a => exact nomatch returned

theorem exists_refused {cause : Error α} (safe : d.Safe P x) (failed : x = .error cause) :
    ∃ a, cause = d.domainError a := by
  cases safe with
  | ok holds => exact nomatch failed
  | refuses a => exact ⟨a, (Except.error.inj failed).symm⟩

end Safe

theorem safe_element (a : α) : d.Safe (· ∈ d) (d.element a) := by
  unfold element
  split
  next member => exact .ok member
  next => exact .refuses a

variable [Scalar α]

theorem safe_pow (a p : α) : d.Safe (fun _ => True) (d.pow a p) := by
  refine (safe_element a).bind fun {a} _ => ?_
  split
  -- powers of zero have exponents of three kinds
  · split
    · exact .ok trivial
    · split
      · exact .ok trivial
      · exact .refuses a
  · exact (safe_element _).mono fun _ => trivial

end Dioid

namespace Matrix

variable {A B M N : Matrix α} {m n : Nat}

theorem shape_checked (computed : M.checked d = .ok N) : N.shape = M.shape := by
  obtain ⟨-, rfl⟩ := (checked_eq_ok_iff d).mp computed
  rfl

theorem safe_checked (rows : M.rows = m) (cols : M.cols = n) :
    d.Safe (Over d m n) (M.checked d) := by
  cases accepted : M.checked d with
  | ok N =>
    obtain ⟨elements, rfl⟩ := (checked_eq_ok_iff d).mp accepted
    exact .ok ⟨rows, cols, elements⟩
  | error cause =>
    unfold checked validate at accepted
    split at accepted
    next a _ =>
      obtain rfl : d.domainError a = cause := Except.error.inj accepted
      exact .refuses a
    next => exact nomatch accepted

theorem over_zeros (zero : d.zero ∈ d) (rows : M.rows = m) (cols : M.cols = n) :
    (M.map fun _ => d.zero).Over d m n where
  rows := rows
  cols := cols
  elements a member := by
    obtain ⟨i, j, rfl⟩ := mem_toList.mp member
    exact (cell_map (fun _ => d.zero) M i j).symm ▸ zero

variable [Scalar α]

theorem shape_scale {a : α} (computed : M.scale d a = .ok N) : N.shape = M.shape := by
  obtain ⟨a, -, computed⟩ := bind_eq_ok_iff.mp computed
  split at computed
  · exact Except.ok.inj computed ▸ rfl
  · exact shape_checked (M := M.map (scaleCell d a)) computed

theorem shape_mul (inner : A.cols = B.rows) (computed : A.mul d B = .ok M) :
    M.shape = ⟨A.rows, B.cols⟩ := by
  unfold mul at computed
  split at computed
  next single =>
    obtain ⟨one, one'⟩ : A.rows = 1 ∧ A.cols = 1 := by simpa [isScalar] using single
    rw [shape_scale computed, shape, ← inner, one', one]
  next =>
    split at computed
    next single =>
      obtain ⟨one, one'⟩ : B.rows = 1 ∧ B.cols = 1 := by simpa [isScalar] using single
      rw [shape_scale computed, shape, inner, one, one']
    next => exact shape_checked (M := products d A B) computed

/-- No cell has to be an element beforehand: those of a multiple by zero are zero, and those of any
other multiple are checked. -/
theorem safe_scale (zero : d.zero ∈ d) (rows : M.rows = m) (cols : M.cols = n) (a : α) :
    d.Safe (Over d m n) (M.scale d a) := by
  refine (Dioid.safe_element a).bind fun _ => ?_
  split
  · exact .ok (over_zeros zero rows cols)
  · exact safe_checked rows cols

theorem safe_mul (zero : d.zero ∈ d) (rows : A.rows = m) (inner : A.cols = B.rows)
    (cols : B.cols = n) : d.Safe (Over d m n) (A.mul d B) := by
  unfold mul
  split
  next single =>
    -- one row goes with one cell, and so the other factor has the shape of the product
    obtain ⟨one, one'⟩ : A.rows = 1 ∧ A.cols = 1 := by simpa [isScalar] using single
    exact safe_scale zero ((inner.symm.trans one').trans (one.symm.trans rows)) cols A.corner
  next =>
    split
    next single =>
      obtain ⟨one, one'⟩ : B.rows = 1 ∧ B.cols = 1 := by simpa [isScalar] using single
      exact safe_scale zero rows ((inner.trans one).trans (one'.symm.trans cols)) B.corner
    next => exact safe_checked rows cols

/-- The inverses that make up a subsolution are not checked. -/
theorem safe_subsolution (zero : d.zero ∈ d) {b : Matrix α} (rows : A.rows = b.rows) :
    d.Safe (fun x => x.rows = A.cols ∧ x.cols = b.cols) (A.subsolution d b) :=
  (safe_mul (A := b.pseudoInverse d) zero rfl rows.symm rfl).bind fun sized =>
    .ok ⟨sized.cols, sized.rows⟩

theorem safe_centred (zero : d.zero ∈ d) {x : Matrix α} (rows : x.rows = m) (cols : x.cols = n)
    (gap : α) : d.Safe (Over d m n) (x.centred d gap) :=
  (Dioid.safe_pow gap _).bind fun _ => safe_scale zero rows cols _

end Matrix

end TropicalAlgebra
