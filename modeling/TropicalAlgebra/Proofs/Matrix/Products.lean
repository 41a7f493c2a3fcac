import TropicalAlgebra.Proofs.Matrix.Entries

/-!
# Products of stored matrices

A product is formed in one of two ways: from the rows and the columns of its factors, or, if one of
them is a single cell, as a multiple of the other. In both, every entry is the sum of the products
along one row and one column. Whether the product exists is then a question of its cells alone.
-/

namespace TropicalAlgebra

namespace Matrix

variable {α : Type} [Scalar α] {d : Dioid α} {factors terms : Set α} {n : Nat}
variable {A B C : Matrix α}

/-- What a multiple makes of a cell. -/
def multipleCell (d : Dioid α) (scalar a : α) : α :=
  if d.isZero scalar then d.zero else scaleCell d scalar a

/-- The product of two square matrices of one size, before its cells are checked. -/
def unchecked (d : Dioid α) (A B : Matrix α) : Matrix α :=
  if A.isScalar then B.map (multipleCell d A.corner) else products d A B

theorem multipleCell_of_isZero {a : α} (empty : d.isZero a = true) :
    multipleCell d a = fun _ => d.zero := funext fun _ => if_pos empty

theorem multipleCell_of_not_isZero {a : α} (some : ¬ d.isZero a = true) :
    multipleCell d a = scaleCell d a := funext fun _ => if_neg some

/-- A multiple of a cell is a product, although a multiple of zero is not formed. -/
theorem same_multipleCell {same : α → α → Prop}
    (law : d.Annihilating same factors terms) {a b : α} (ha : a ∈ factors) (hb : b ∈ factors) :
    multipleCell d a b ∈ terms ∧ same (multipleCell d a b) (d.mul b a) := by
  have product := law.mul_term hb ha
  unfold multipleCell scaleCell
  split
  next empty => exact ⟨law.zero_term, law.symm product law.zero_term (law.mul_zero hb ha empty)⟩
  next =>
    split
    next empty =>
      have member := law.factor_term hb
      have vanishes := law.symm product law.zero_term (law.zero_mul hb ha empty)
      exact ⟨member, law.trans member law.zero_term product (law.same_zero member empty) vanishes⟩
    next => exact ⟨product, law.refl product⟩

omit [Scalar α] in
theorem eq_zero_of_mem_zeros {c : α} (hc : c ∈ (B.map fun _ => d.zero).toList) : c = d.zero := by
  obtain ⟨i, j, rfl⟩ := mem_toList.mp hc
  exact cell_map (fun _ => d.zero) B i j

theorem scale_eq_ok {a : α} (computed : B.scale d a = .ok C) :
    a ∈ d ∧ B.map (multipleCell d a) = C ∧ ∀ c ∈ C.toList, c = d.zero ∨ c ∈ d := by
  obtain ⟨_, accepted, computed⟩ := bind_eq_ok_iff.mp computed
  obtain ⟨member, rfl⟩ := Dioid.element_eq_ok_iff.mp accepted
  split at computed
  next empty =>
    obtain rfl := Except.ok.inj computed
    refine ⟨member, by rw [multipleCell_of_isZero empty], fun c hc => Or.inl ?_⟩
    exact eq_zero_of_mem_zeros hc
  next some =>
    obtain ⟨elements, rfl⟩ := (checked_eq_ok_iff d).mp computed
    exact ⟨member, by rw [multipleCell_of_not_isZero some], fun c hc => Or.inr (elements c hc)⟩

theorem scale_of_elements {a : α} (member : a ∈ d)
    (elements : ∀ c ∈ (B.map (multipleCell d a)).toList, c ∈ d) :
    B.scale d a = .ok (B.map (multipleCell d a)) := by
  refine bind_eq_ok_iff.mpr ⟨a, Dioid.element_of_mem member, ?_⟩
  split
  next empty =>
    rw [multipleCell_of_isZero empty]
    rfl
  next some =>
    rw [multipleCell_of_not_isZero some] at elements ⊢
    exact (checked_eq_ok_iff d).mpr ⟨elements, rfl⟩

/-- A multiple is checked like any other result, although its zero cells are not looked at. -/
theorem scale_eq_checked {a : α} (zero : d.isZero a = true → d.zero ∈ d) (member : a ∈ d) :
    B.scale d a = (B.map (multipleCell d a)).checked d := by
  rw [scale, Dioid.element_of_mem member]
  by_cases empty : d.isZero a = true
  · have zeros : ∀ c ∈ (B.map fun _ => d.zero).toList, c ∈ d := by
      intro c hc
      rw [eq_zero_of_mem_zeros hc]
      exact zero empty
    rw [multipleCell_of_isZero empty, (checked_eq_ok_iff d).mpr ⟨zeros, rfl⟩]
    exact if_pos empty
  · rw [multipleCell_of_not_isZero empty]
    exact if_neg empty

namespace Factors

theorem dot_le_iff (law : d.Distributive factors terms) (squareA : A.Factors factors n)
    (squareB : B.Factors factors n) (i : Fin A.rows) (j : Fin B.cols) {x : α} (hx : x ∈ terms) :
    d.le (d.dot (A.row i) (B.column j)) x ↔
      ∀ c, d.le (d.mul (A.entry d i c) (B.entry d c j)) x := by
  rw [law.dot_le_iff (squareA.row_mem i) (squareB.column_mem j) hx]
  constructor
  · intro bounded c
    by_cases inside : c < n
    · have h : c < ((A.row i).zip (B.column j)).length := by
        rw [List.length_zip, length_row, length_column, squareA.cols, squareB.rows]
        omega
      have term := bounded _ (List.getElem_mem h)
      rwa [getElem_zip_row_column (d := d) h] at term
    · have left := squareA.entry_mem law i c
      rw [squareA.entry_outside fun within => inside within.2] at left ⊢
      exact law.mul_le_of_isZero_left left (squareB.entry_mem law c j) hx law.isZero_zero
  · intro bounded p hp
    obtain ⟨c, h, rfl⟩ := List.mem_iff_getElem.mp hp
    rw [getElem_zip_row_column (d := d) h]
    exact bounded c

/-- Outside a square, every product of entries has a zero factor. -/
theorem mul_entry_le_of_outside (law : d.Distributive factors terms)
    (squareA : A.Factors factors n) (squareB : B.Factors factors n) {i j : Nat}
    (outside : ¬ (i < n ∧ j < n)) (c : Nat) {x : α} (hx : x ∈ terms) :
    d.le (d.mul (A.entry d i c) (B.entry d c j)) x := by
  have left := squareA.entry_mem law i c
  have right := squareB.entry_mem law c j
  by_cases row : i < n
  · rw [squareB.entry_outside fun within => outside ⟨row, within.2⟩] at right ⊢
    exact law.mul_le_of_isZero_right left right hx law.isZero_zero
  · rw [squareA.entry_outside fun within => row within.1] at left ⊢
    exact law.mul_le_of_isZero_left left right hx law.isZero_zero

theorem multipleCell_term (law : d.Distributive factors terms) {a b : α} (ha : a ∈ factors)
    (hb : b ∈ factors) : multipleCell d a b ∈ terms :=
  (same_multipleCell law.annihilating ha hb).1

theorem multipleCell_le_iff (law : d.Distributive factors terms) {a b x : α} (ha : a ∈ factors)
    (hb : b ∈ factors) (hx : x ∈ terms) :
    d.le (multipleCell d a b) x ↔ d.le (d.mul b a) x := by
  obtain ⟨member, plain⟩ := same_multipleCell law.annihilating ha hb
  exact law.joins.le_iff_of_beq member (law.mul_term hb ha) hx plain

theorem unchecked_term (law : d.Distributive factors terms) (squareA : A.Factors factors n)
    (squareB : B.Factors factors n) : (unchecked d A B).Factors terms n := by
  unfold unchecked
  split
  next =>
    refine ⟨squareB.rows, squareB.cols, fun a ha => ?_⟩
    obtain ⟨i, j, rfl⟩ := mem_toList.mp ha
    rw [cell_map (multipleCell d A.corner) B i j]
    exact multipleCell_term law squareA.corner_mem (squareB.cell_mem _ _)
  next =>
    refine ⟨squareA.rows, squareB.cols, fun a ha => ?_⟩
    obtain ⟨i, j, rfl⟩ := mem_toList.mp ha
    have cell : (products d A B).cell i j = d.dot (A.row i) (B.column j) := cell_ofFn i j
    rw [cell]
    exact law.dot_term (squareA.row_mem i) (squareB.column_mem j)

theorem isProduct_products (law : d.Distributive factors terms) (squareA : A.Factors factors n)
    (squareB : B.Factors factors n) :
    law.IsProduct (A.entry d) (B.entry d) ((Matrix.products d A B).entry d) := by
  intro i j x hx
  by_cases inside : i < n ∧ j < n
  · obtain ⟨hi, hj⟩ := inside
    rw [← squareA.rows] at hi
    rw [← squareB.cols] at hj
    have entry : (Matrix.products d A B).entry d i j = d.dot (A.row ⟨i, hi⟩) (B.column ⟨j, hj⟩) :=
      (entry_cell (M := products d A B) ⟨i, hi⟩ ⟨j, hj⟩).trans (cell_ofFn _ _)
    rw [entry]
    exact dot_le_iff law squareA squareB ⟨i, hi⟩ ⟨j, hj⟩ hx
  · have entry : (Matrix.products d A B).entry d i j = d.zero :=
      entry_of_outside fun within => inside ⟨squareA.rows ▸ within.1, squareB.cols ▸ within.2⟩
    rw [entry]
    exact iff_of_true (law.le_of_isZero law.zero_term hx law.isZero_zero)
      fun c => mul_entry_le_of_outside law squareA squareB inside c hx

/-- A single cell is multiplied by the other matrix from the right. -/
theorem isProduct_multiple (law : d.Distributive factors terms) (squareA : A.Factors factors 1)
    (squareB : B.Factors factors 1) :
    law.flip.IsProduct (A.entry d) (B.entry d)
      ((B.map (multipleCell d A.corner)).entry d) := by
  intro i j x hx
  have corner : A.entry d 0 0 = A.corner := entry_cell ⟨0, A.rows_pos⟩ ⟨0, A.cols_pos⟩
  by_cases inside : i < 1 ∧ j < 1
  · obtain ⟨rfl, rfl⟩ : i = 0 ∧ j = 0 := by omega
    have cell : B.entry d 0 0 = B.corner := entry_cell ⟨0, B.rows_pos⟩ ⟨0, B.cols_pos⟩
    have entry : (B.map (multipleCell d A.corner)).entry d 0 0 =
        multipleCell d A.corner (B.entry d 0 0) := by
      rw [cell]
      exact (entry_cell (M := B.map _) ⟨0, B.rows_pos⟩ ⟨0, B.cols_pos⟩).trans (cell_map _ B _ _)
    rw [entry]
    refine (multipleCell_le_iff law squareA.corner_mem (squareB.entry_mem law 0 0) hx).trans
      ⟨fun below c => ?_, fun below => ?_⟩
    · by_cases first : c = 0
      · rw [first, corner]
        exact below
      · have outside : B.entry d c 0 = d.zero := squareB.entry_outside (by omega)
        exact law.flip.mul_le_of_isZero_right (squareA.entry_mem law 0 c)
          (squareB.entry_mem law c 0) hx (outside ▸ law.isZero_zero)
    · rw [← corner]
      exact below 0
  · have entry : (B.map (multipleCell d A.corner)).entry d i j = d.zero :=
      entry_of_outside fun within => inside ⟨squareB.rows ▸ within.1, squareB.cols ▸ within.2⟩
    rw [entry]
    exact iff_of_true (law.le_of_isZero law.zero_term hx law.isZero_zero) fun c =>
      mul_entry_le_of_outside law.flip squareA squareB inside c hx

theorem isProduct_unchecked (law : d.Distributive factors terms) (squareA : A.Factors factors n)
    (squareB : B.Factors factors n) :
    (law.sided n).IsProduct (A.entry d) (B.entry d) ((unchecked d A B).entry d) := by
  by_cases size : n = 1
  · subst size
    rw [unchecked, if_pos (squareA.isScalar_iff.mpr rfl)]
    exact isProduct_multiple law squareA squareB
  · have same : d.sided n = d := if_neg size
    rw [unchecked, if_neg (mt squareA.isScalar_iff.mp size)]
    simpa only [Dioid.Distributive.IsProduct, same] using isProduct_products law squareA squareB

theorem mul_of_elements (squareA : A.Factors factors n) (squareB : B.Factors factors n)
    (member : A.corner ∈ d) (elements : ∀ c ∈ (unchecked d A B).toList, c ∈ d) :
    A.mul d B = .ok (unchecked d A B) := by
  rw [Matrix.mul]
  by_cases size : n = 1
  · have single := squareA.isScalar_iff.mpr size
    have formed : unchecked d A B = B.map (multipleCell d A.corner) := if_pos single
    rw [if_pos single]
    rw [formed] at elements ⊢
    exact scale_of_elements member elements
  · have several := mt squareA.isScalar_iff.mp size
    have formed : unchecked d A B = products d A B := if_neg several
    rw [if_neg several, if_neg (mt squareB.isScalar_iff.mp size),
      if_pos (squareA.cols.trans squareB.rows.symm)]
    exact (checked_eq_ok_iff d).mpr ⟨formed ▸ elements, formed.symm⟩

/-- The product of two square matrices, in which a single cell takes part as a scalar. -/
theorem mul (law : d.Distributive factors terms) (squareA : A.Factors factors n)
    (squareB : B.Factors factors n) (computed : A.mul d B = .ok C) :
    C.Factors factors n ∧ (law.sided n).IsProduct (A.entry d) (B.entry d) (C.entry d) := by
  have shape := unchecked_term law squareA squareB
  have product := isProduct_unchecked law squareA squareB
  suffices unchecked d A B = C ∧ ∀ c ∈ C.toList, c ∈ factors by
    obtain ⟨rfl, members⟩ := this
    exact ⟨⟨shape.rows, shape.cols, members⟩, product⟩
  rw [Matrix.mul] at computed
  rw [unchecked]
  by_cases size : n = 1
  · rw [if_pos (squareA.isScalar_iff.mpr size)] at computed ⊢
    obtain ⟨-, same, cells⟩ := scale_eq_ok computed
    refine ⟨same, fun c hc => ?_⟩
    rcases cells c hc with rfl | element
    · exact law.zero_factor
    · exact law.element_factor element
  · rw [if_neg (mt squareA.isScalar_iff.mp size)] at computed ⊢
    rw [if_neg (mt squareB.isScalar_iff.mp size), if_pos (squareA.cols.trans squareB.rows.symm)]
      at computed
    obtain ⟨elements, rfl⟩ := (checked_eq_ok_iff d).mp computed
    exact ⟨rfl, fun c hc => law.element_factor (elements c hc)⟩

/-- A product of elements exists if there is a matrix of elements that is equal to it. -/
theorem exists_mul (law : d.Distributive d.elements terms)
    (alike : ∀ {a b}, a ∈ d → b ∈ terms → a == b → b ∈ d) (squareA : A.Factors d.elements n)
    (squareB : B.Factors d.elements n) (squareC : C.Factors d.elements n)
    (product : (law.sided n).IsProduct (A.entry d) (B.entry d) (C.entry d)) :
    ∃ C', A.mul d B = .ok C' := by
  have shape := unchecked_term law squareA squareB
  have formed := isProduct_unchecked law squareA squareB
  refine ⟨_, mul_of_elements squareA squareB squareA.corner_mem fun c hc => ?_⟩
  obtain ⟨i, j, rfl⟩ := mem_toList.mp hc
  rw [← entry_cell (d := d) i j]
  have term := fun i j => shape.entry_mem_of_zero law.zero_term i j
  have term' := fun i j => squareC.entry_term law i j
  -- both matrices are the product, so their cells lie below each other
  have low := product.le formed term i j
  have high := formed.le product term' i j
  rw [law.le_sided] at low high
  exact alike (squareC.entry_mem law i j) (term i j)
    (law.joins.le_antisymm (term' i j) (term i j) low high)

end Factors

/-! ### The identity -/

section Identity

variable {α : Type} {d : Dioid α} {n : Nat} {pos : 0 < n}

theorem entry_identity_self {i : Nat} (h : i < n) :
    (identityOfPos d n pos).entry d i i = d.one := by
  have cell : (identityOfPos d n pos).cell ⟨i, h⟩ ⟨i, h⟩ = identityCell d i i := cell_ofFn _ _
  exact (entry_cell (M := identityOfPos d n pos) ⟨i, h⟩ ⟨i, h⟩).trans (cell.trans (if_pos rfl))

theorem entry_identity_of_ne {i j : Nat} (h : i ≠ j) :
    (identityOfPos d n pos).entry d i j = d.zero := by
  by_cases inside : i < n ∧ j < n
  · have cell : (identityOfPos d n pos).cell ⟨i, inside.1⟩ ⟨j, inside.2⟩ = identityCell d i j :=
      cell_ofFn _ _
    exact (entry_cell (M := identityOfPos d n pos) ⟨i, inside.1⟩ ⟨j, inside.2⟩).trans
      (cell.trans (if_neg h))
  · exact entry_of_outside inside

variable [Scalar α] {factors terms : Set α}

theorem factors_identity (law : d.Distributive factors terms) :
    (identityOfPos d n pos).Factors factors n where
  rows := rfl
  cols := rfl
  members a ha := by
    obtain ⟨i, j, rfl⟩ := mem_toList.mp ha
    have cell : (identityOfPos d n pos).cell i j = identityCell d i j := cell_ofFn _ _
    rw [cell, identityCell]
    split
    · exact law.one_factor
    · exact law.zero_factor

/-- A square matrix is the product of the identity and itself. -/
theorem isProduct_identity (law : d.Distributive factors terms) (pos : 0 < n) {M : Matrix α}
    (square : M.Factors factors n) :
    law.IsProduct ((identityOfPos d n pos).entry d) (M.entry d) (M.entry d) := by
  intro i j x hx
  by_cases inside : i < n ∧ j < n
  · have edge := square.entry_mem law i j
    have member := square.entry_term law i j
    have product := law.mul_term law.one_factor edge
    constructor
    · intro below c
      by_cases same : i = c
      · subst same
        rw [entry_identity_self inside.1]
        exact (law.joins.le_iff_of_beq product member hx (law.one_mul edge)).mpr below
      · rw [entry_identity_of_ne same]
        exact law.mul_le_of_isZero_left law.zero_factor (square.entry_mem law c j) hx
          law.isZero_zero
    · intro below
      have self := below i
      rw [entry_identity_self inside.1] at self
      exact (law.joins.le_iff_of_beq product member hx (law.one_mul edge)).mp self
  · rw [square.entry_outside inside]
    exact iff_of_true (law.le_of_isZero law.zero_term hx law.isZero_zero) fun c =>
      Factors.mul_entry_le_of_outside law (factors_identity law) square inside c hx

/-- The same holds from whichever side a cell is multiplied. -/
theorem isProduct_identity_sided (law : d.Distributive factors terms) (pos : 0 < n) {M : Matrix α}
    (square : M.Factors factors n) :
    (law.sided n).IsProduct ((identityOfPos d n pos).entry d) (M.entry d) (M.entry d) := by
  have product := isProduct_identity (law.sided n) pos square
  have same : (identityOfPos (d.sided n) n pos).entry (d.sided n) =
        (identityOfPos d n pos).entry d ∧ M.entry (d.sided n) = M.entry d := by
    unfold Dioid.sided
    split <;> exact ⟨rfl, rfl⟩
  rwa [same.1, same.2] at product

end Identity

end Matrix

end TropicalAlgebra
