import TropicalAlgebra.Proofs.Matrix.PlainProduct

/-!
# Products of corresponding matrices

Neither the order nor the repetition of its terms changes a sum. So if the rows and columns of some
factors correspond, and the cells there are equal elements, then the same holds of their products.
-/

namespace TropicalAlgebra

variable {α : Type} [Scalar α]

/-- Equal elements can stand for each other: the laws that survive rounding, and a relation of
scalars that is equality among elements and that all operations and tests respect. -/
structure Dioid.Coherent (R : α → α → Prop) (terms : Set α) (d : Dioid α) : Prop where
  distributive : d.Distributive d.elements terms
  exchangeable : d.Exchangeable
  alike : Dioid.Alike R d d
  related_iff : ∀ {a b}, a ∈ d → b ∈ d → (R a b ↔ a == b)
  mem_congr : ∀ {a b}, a ∈ d → a == b → b ∈ d
  inv_mem : ∀ {a}, a ∈ d → d.inv a ∈ d

/-- A sum of products lies below another if every product has an equal one there. -/
theorem Dioid.Distributive.dot_le_dot {d : Dioid α} {factors terms : Set α}
    (law : d.Distributive factors terms) {xs ys xs' ys' : List α}
    (hxs : ∀ a ∈ xs, a ∈ factors) (hys : ∀ a ∈ ys, a ∈ factors)
    (hxs' : ∀ a ∈ xs', a ∈ factors) (hys' : ∀ a ∈ ys', a ∈ factors)
    (covered : ∀ p ∈ xs.zip ys, ∃ p' ∈ xs'.zip ys', p.1 == p'.1 ∧ p.2 == p'.2) :
    d.le (d.dot xs ys) (d.dot xs' ys') := by
  have total := law.dot_term hxs' hys'
  refine (law.dot_le_iff hxs hys total).mpr fun p hp => ?_
  obtain ⟨p', hp', first, second⟩ := covered p hp
  have left := hxs _ (List.of_mem_zip hp).1
  have right := hys _ (List.of_mem_zip hp).2
  have left' := hxs' _ (List.of_mem_zip hp').1
  have right' := hys' _ (List.of_mem_zip hp').2
  have product := law.mul_term left right
  have product' := law.mul_term left' right'
  have below := (law.dot_le_iff hxs' hys' total).mp (law.joins.le_refl total) p' hp'
  have equal := law.mul_congr left left' right right' first second
  exact (law.joins.le_iff_of_beq product product' total equal).mpr below

omit [Scalar α] in
/-- The factors that meet in a product are those of one inner position. -/
theorem Matrix.mem_zip_row_column {A B : Matrix α} {i : Fin A.rows} {j : Fin B.cols} {p : α × α} :
    p ∈ (A.row i).zip (B.column j) ↔
      ∃ k, ∃ (h : k < A.cols) (h' : k < B.rows), p = (A.cell i ⟨k, h⟩, B.cell ⟨k, h'⟩ j) := by
  have entry {k : Nat} (h : k < ((A.row i).zip (B.column j)).length) (ha : k < A.cols)
      (hb : k < B.rows) :
      ((A.row i).zip (B.column j))[k] = (A.cell i ⟨k, ha⟩, B.cell ⟨k, hb⟩ j) := by
    simp [row, column, cell]
  constructor
  · intro hp
    obtain ⟨k, h, rfl⟩ := List.mem_iff_getElem.mp hp
    have inside : k < A.cols ∧ k < B.rows := by simpa using h
    exact ⟨k, inside.1, inside.2, entry h inside.1 inside.2⟩
  · rintro ⟨k, ha, hb, rfl⟩
    have inside : k < ((A.row i).zip (B.column j)).length := by simp [ha, hb]
    exact entry inside ha hb ▸ List.getElem_mem inside

namespace Dioid.Coherent

variable {R : α → α → Prop} {terms : Set α} {d : Dioid α} (law : d.Coherent R terms)

include law

/-! ### Equal elements -/

theorem term_of_mem {a : α} (member : a ∈ d) : a ∈ terms :=
  law.distributive.factor_term (law.distributive.element_factor member)

theorem equal_refl {a : α} (member : a ∈ d) : d.EqualElements a a :=
  ⟨member, member, law.exchangeable.refl member⟩

theorem equal_symm {a b : α} (equal : d.EqualElements a b) : d.EqualElements b a :=
  ⟨equal.2.1, equal.1,
    law.distributive.symm (law.term_of_mem equal.1) (law.term_of_mem equal.2.1) equal.2.2⟩

theorem equal_trans {a b c : α} (first : d.EqualElements a b) (second : d.EqualElements b c) :
    d.EqualElements a c :=
  ⟨first.1, second.2.1, law.distributive.trans (law.term_of_mem first.1)
    (law.term_of_mem first.2.1) (law.term_of_mem second.2.1) first.2.2 second.2.2⟩

theorem related_of_equal {a b : α} (equal : d.EqualElements a b) : R a b :=
  (law.related_iff equal.1 equal.2.1).mpr equal.2.2

theorem equal_inv {a b : α} (equal : d.EqualElements a b) :
    d.EqualElements (d.inv a) (d.inv b) := by
  have left := law.inv_mem equal.1
  have right := law.inv_mem equal.2.1
  exact ⟨left, right, (law.related_iff left right).mp (law.alike.inv (law.related_of_equal equal))⟩

theorem interchangeable {a b : α} (ha : a ∈ terms) (hb : b ∈ terms) (equal : a == b) :
    d.Interchangeable a b :=
  ⟨⟨fun member => law.mem_congr member equal,
    fun member => law.mem_congr member (law.distributive.symm ha hb equal)⟩, fun _ => equal⟩

/-! ### Matrices along correspondences -/

open TropicalAlgebra.Matrix

variable {ρ μ κ : Correspondence} {A A' B B' : Matrix α}

theorem pseudoInverse_along (along : A.Along d.EqualElements ρ κ A') :
    (A.pseudoInverse d).Along d.EqualElements κ ρ (A'.pseudoInverse d) where
  rows_eq := along.cols_eq
  rows_eq' := along.cols_eq'
  cols_eq := along.rows_eq
  cols_eq' := along.rows_eq'
  cell j j' i i' hj hi hj' hi' col row := by
    have cell : (A.pseudoInverse d).cell ⟨j, hj⟩ ⟨i, hi⟩ = d.inv (A.cell ⟨i, hi⟩ ⟨j, hj⟩) :=
      cell_pseudoInverse d A _ _
    have cell' : (A'.pseudoInverse d).cell ⟨j', hj'⟩ ⟨i', hi'⟩ =
        d.inv (A'.cell ⟨i', hi'⟩ ⟨j', hj'⟩) :=
      cell_pseudoInverse d A' _ _
    rw [cell, cell']
    exact law.equal_inv (along.cell i i' j j' hi hj hi' hj' row col)

/-- Products correspond if the sums along their rows and columns do. -/
theorem mul_along_of_products (hA : ∀ a ∈ A.toList, a ∈ d) (hB : ∀ b ∈ B.toList, b ∈ d)
    (hA' : ∀ a ∈ A'.toList, a ∈ d) (hB' : ∀ b ∈ B'.toList, b ∈ d) (fits : A.cols = B.rows)
    (fits' : A'.cols = B'.rows)
    (sums : (products d A B).Along d.Interchangeable ρ κ (products d A' B')) :
    Outcome.Alike (fun _ _ => True) (Matrix.Along d.EqualElements ρ κ) (A.mul d B)
      (A'.mul d B') := by
  -- a single cell may stand on one side only, so both products are traced back to their sums
  have plain := mul_alike_products law.exchangeable hA hB fits
  have plain' := mul_alike_products law.exchangeable hA' hB' fits'
  refine ((plain.comp sums.checked).comp plain'.flip).mono (fun _ => trivial) ?_
  rintro V V' ⟨P', ⟨P, same, along⟩, same'⟩
  refine ⟨same.rows.trans along.rows_eq, same'.rows.trans along.rows_eq',
    same.cols.trans along.cols_eq, same'.cols.trans along.cols_eq', ?_⟩
  intro i i' j j' hi hj hi' hj' row col
  have hi₀ := same.rows ▸ hi
  have hj₀ := same.cols ▸ hj
  have hi₁ := same'.rows ▸ hi'
  have hj₁ := same'.cols ▸ hj'
  have first := same.cell i j hi hj hi₀ hj₀
  have second := along.cell i i' j j' hi₀ hj₀ hi₁ hj₁ row col
  have third := law.equal_symm (same'.cell i' j' hi' hj' hi₁ hj₁)
  exact law.equal_trans (law.equal_trans first second) third

theorem along_swap (along : A.Along d.EqualElements ρ κ A') :
    A'.Along d.EqualElements ρ.swap κ.swap A :=
  along.swap.mono law.equal_symm

/-- Every product on the left has an equal one on the right. -/
theorem dot_le_dot_along (along : A.Along d.EqualElements ρ μ A')
    (along' : B.Along d.EqualElements μ κ B') {i i' j j' : Nat} (hi : i < A.rows)
    (hj : j < B.cols) (hi' : i' < A'.rows) (hj' : j' < B'.cols) (row : ρ.Pairs i i')
    (col : κ.Pairs j j') :
    d.le (d.dot (A.row ⟨i, hi⟩) (B.column ⟨j, hj⟩))
      (d.dot (A'.row ⟨i', hi'⟩) (B'.column ⟨j', hj'⟩)) := by
  refine law.distributive.dot_le_dot (row_mem_of_members along.left_mem _)
    (column_mem_of_members along'.left_mem _) (row_mem_of_members along.right_mem _)
    (column_mem_of_members along'.right_mem _) fun p hp => ?_
  obtain ⟨k, hk, hk₁, rfl⟩ := mem_zip_row_column.mp hp
  obtain ⟨k', pair⟩ := μ.partner (along.cols_eq ▸ hk)
  have hk' : k' < A'.cols := along.cols_eq' ▸ (μ.bounds pair).2
  have hk₁' : k' < B'.rows := along'.rows_eq' ▸ (μ.bounds pair).2
  exact ⟨_, mem_zip_row_column.mpr ⟨k', hk', hk₁', rfl⟩,
    (along.cell i i' k k' hi hk hi' hk' row pair).2.2,
    (along'.cell k k' j j' hk₁ hj hk₁' hj' pair col).2.2⟩

/-- Sums of products over corresponding positions are equal. -/
theorem products_along (along : A.Along d.EqualElements ρ μ A')
    (along' : B.Along d.EqualElements μ κ B') :
    (products d A B).Along d.Interchangeable ρ κ (products d A' B') where
  rows_eq := along.rows_eq
  rows_eq' := along.rows_eq'
  cols_eq := along'.cols_eq
  cols_eq' := along'.cols_eq'
  cell i i' j j' hi hj hi' hj' row col := by
    have cell : (products d A B).cell ⟨i, hi⟩ ⟨j, hj⟩ =
        d.dot (A.row ⟨i, hi⟩) (B.column ⟨j, hj⟩) := cell_ofFn _ _
    have cell' : (products d A' B').cell ⟨i', hi'⟩ ⟨j', hj'⟩ =
        d.dot (A'.row ⟨i', hi'⟩) (B'.column ⟨j', hj'⟩) := cell_ofFn _ _
    have total := law.distributive.dot_term (row_mem_of_members along.left_mem ⟨i, hi⟩)
      (column_mem_of_members along'.left_mem ⟨j, hj⟩)
    have total' := law.distributive.dot_term (row_mem_of_members along.right_mem ⟨i', hi'⟩)
      (column_mem_of_members along'.right_mem ⟨j', hj'⟩)
    have low := law.dot_le_dot_along along along' hi hj hi' hj' row col
    have high := law.dot_le_dot_along (law.along_swap along) (law.along_swap along') hi' hj' hi hj
      row col
    rw [cell, cell']
    have equal := law.distributive.joins.le_antisymm total total' low high
    exact law.interchangeable total total' equal

theorem mul_along (along : A.Along d.EqualElements ρ μ A')
    (along' : B.Along d.EqualElements μ κ B') :
    Outcome.Alike (fun _ _ => True) (Matrix.Along d.EqualElements ρ κ) (A.mul d B)
      (A'.mul d B') :=
  law.mul_along_of_products along.left_mem along'.left_mem along.right_mem along'.right_mem
    (along.cols_eq.trans along'.rows_eq.symm) (along.cols_eq'.trans along'.rows_eq'.symm)
    (law.products_along along along')

end Dioid.Coherent

end TropicalAlgebra
