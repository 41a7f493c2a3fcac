import TropicalAlgebra.Proofs.Dioid.Annihilating
import TropicalAlgebra.Proofs.Matrix.Alike
import TropicalAlgebra.Proofs.Matrix.PlainProduct

/-!
# The textbook product

By definition, a cell of a product is the sum of all products along a row and a column. The program
leaves out zeros, starts sums again and treats a single cell as a scalar. None of this shows if zero
is neutral and absorbing and factors can be exchanged: the product has the cells of the textbook
product, and if one of them is not an element, then the first of these is reported.
-/

namespace TropicalAlgebra

variable {α : Type}

namespace Matrix

/-- The product by its definition, without a check of its cells. -/
def textbookProduct (d : Dioid α) (A B : Matrix α) (fits : A.cols = B.rows) : Matrix α :=
  ofFn A.rows B.cols A.rows_pos B.cols_pos fun i j =>
    d.total (List.ofFn fun c => d.mul (A.cell i c) (B.cell (c.cast fits) j))

variable {d : Dioid α} {A B M : Matrix α}

theorem cell_textbookProduct (fits : A.cols = B.rows) {i j : Nat} (hi : i < A.rows)
    (hj : j < B.cols) :
    (textbookProduct d A B fits).cell ⟨i, hi⟩ ⟨j, hj⟩ =
      d.total (((A.row ⟨i, hi⟩).zip (B.column ⟨j, hj⟩)).map fun p => d.mul p.1 p.2) := by
  have cell : (textbookProduct d A B fits).cell ⟨i, hi⟩ ⟨j, hj⟩ =
      d.total (List.ofFn fun c => d.mul (A.cell ⟨i, hi⟩ c) (B.cell (c.cast fits) ⟨j, hj⟩)) :=
    cell_ofFn _ _
  rw [cell, row_eq_ofFn, column_eq_ofFn]
  congr 1
  apply List.ext_getElem (by simp [fits])
  intro c hc hc'
  simp

/-! ### The first cell that is refused -/

theorem rowLists_eq (M : Matrix α) (i : Fin M.rows) :
    M.rowLists = M.rowLists.take i ++ M.row i :: M.rowLists.drop (i + 1) := by
  have inside : i.val < M.rowLists.length := by simp [rowLists]
  have entry : M.rowLists[i.val] = M.row i := by simp [rowLists, row]
  rw [← entry, ← List.drop_eq_getElem_cons inside, List.take_append_drop]

theorem row_eq_append (M : Matrix α) (i : Fin M.rows) (j : Fin M.cols) :
    M.row i = (M.row i).take j ++ M.cell i j :: (M.row i).drop (j + 1) := by
  have inside : j.val < (M.row i).length := by simp
  have entry : (M.row i)[j.val] = M.cell i j := by simp [row, cell]
  rw [← entry, ← List.drop_eq_getElem_cons inside, List.take_append_drop]

/-- Cells are checked row by row, and each row from left to right. -/
theorem checked_eq_error {i : Fin M.rows} {j : Fin M.cols} (outside : M.cell i j ∉ d)
    (before : ∀ i' j', i' < i ∨ i' = i ∧ j' < j → M.cell i' j' ∈ d) :
    M.checked d = .error (d.domainError (M.cell i j)) := by
  have accepted {a : α} (ha : a ∈ d) : (!(!d.contains a)) = true := (Bool.not_not _).trans ha
  have refused : (!d.contains (M.cell i j)) = true := by
    rw [Bool.not_eq_true', Bool.eq_false_iff]
    exact outside
  have found : M.toList.find? (fun a => !d.contains a) = some (M.cell i j) := by
    refine List.find?_flatten_eq_some_iff.mpr ⟨refused, M.rowLists.take i, (M.row i).take j,
      (M.row i).drop (j + 1), M.rowLists.drop (i + 1), ?_, ?_, ?_⟩
    · rw [← row_eq_append, ← rowLists_eq]
    · intro row above a ha
      obtain ⟨i', less, rfl⟩ := List.mem_take_iff_getElem.mp above
      have bound : i' < M.rows := by omega
      have entry : M.rowLists[i'] = M.row ⟨i', bound⟩ := by simp [rowLists, row]
      rw [entry, row_eq_ofFn, List.mem_ofFn] at ha
      obtain ⟨j', rfl⟩ := ha
      exact accepted (before _ _ (.inl (Fin.lt_def.mpr (lt_min_iff.mp less).1)))
    · intro a ha
      obtain ⟨j', less, rfl⟩ := List.mem_take_iff_getElem.mp ha
      have bound : j' < M.cols := by omega
      have entry : (M.row i)[j'] = M.cell i ⟨j', bound⟩ := by simp [row, cell]
      rw [entry]
      exact accepted (before _ _ (.inr ⟨rfl, Fin.lt_def.mpr (lt_min_iff.mp less).1⟩))
  rw [checked, validate, found]
  rfl

end Matrix

variable [Scalar α]

/-! ### The laws -/

namespace Dioid

/-- Zero may be left out, and factors can be exchanged. What is the same is an element alike. -/
structure Exchanging (d : Dioid α) (same : α → α → Prop) (terms : Set α) : Prop
    extends d.Annihilating same d.elements terms where
  mem_iff : ∀ {a b}, a ∈ terms → b ∈ terms → same a b → (a ∈ d ↔ b ∈ d)
  mul_comm : ∀ {a b}, a ∈ d → b ∈ d → same (d.mul a b) (d.mul b a)

namespace Exchanging

variable {d : Dioid α} {same : α → α → Prop} {terms : Set α} (law : d.Exchanging same terms)

include law

theorem zero_mem {a : α} (ha : a ∈ d) (empty : d.isZero a = true) : d.zero ∈ d := by
  have member := law.factor_term ha
  exact (law.mem_iff member law.zero_term (law.same_zero member empty)).mp ha

/-- A sum that leaves out zeros, or a multiple of a cell in place of a sum with a single term. -/
theorem among_of_combines {xs ys : List α} {c : α} (hxs : ∀ a ∈ xs, a ∈ d) (hys : ∀ b ∈ ys, b ∈ d)
    (combined : Matrix.Combines d xs ys c) :
    Among terms same c (d.total ((xs.zip ys).map fun p => d.mul p.1 p.2)) := by
  have total := law.total_term (law.products_term hxs hys)
  -- the only term of a sum is added to zero
  have single {a b : α} (product : d.mul a b ∈ terms) : same (d.mul a b) (d.total [d.mul a b]) :=
    law.symm (law.add_term law.zero_term product) product (law.zero_add product)
  cases combined with
  | dot =>
    obtain ⟨member, plain⟩ := law.same_dot hxs hys
    exact ⟨member, total, plain⟩
  | left a b =>
    obtain ⟨ha, hb⟩ := And.intro (hxs a List.mem_cons_self) (hys b List.mem_cons_self)
    obtain ⟨member, plain⟩ := Matrix.same_multipleCell law.toAnnihilating ha hb
    have product := law.mul_term ha hb
    have exchanged := law.trans member (law.mul_term hb ha) product plain (law.mul_comm hb ha)
    exact ⟨member, total, law.trans member product total exchanged (single product)⟩
  | right a b =>
    obtain ⟨ha, hb⟩ := And.intro (hxs a List.mem_cons_self) (hys b List.mem_cons_self)
    obtain ⟨member, plain⟩ := Matrix.same_multipleCell law.toAnnihilating hb ha
    have product := law.mul_term ha hb
    exact ⟨member, total, law.trans member product total plain (single product)⟩

end Exchanging

end Dioid

/-! ### Products of every shape -/

namespace Matrix

variable {d : Dioid α} {same : α → α → Prop} {terms : Set α} {A B : Matrix α}
  (law : d.Exchanging same terms)

include law

theorem mul_alike_textbook (hA : ∀ a ∈ A.toList, a ∈ d) (hB : ∀ b ∈ B.toList, b ∈ d)
    (fits : A.cols = B.rows) :
    Outcome.Alike (Error.Alike (Among terms same) d d)
      (Matrix.Alike (Among terms same)) (A.mul d B)
      ((textbookProduct d A B fits).checked d) := by
  obtain ⟨N, formed, rows, cols, cells⟩ := exists_mul_eq_checked hA hB law.zero_mem fits
  rw [formed]
  refine Alike.checked_of_mem_iff ⟨rows, cols, ?_⟩ fun h => law.mem_iff h.1 h.2.1 h.2.2
  intro i j hi hj (hi' : i < A.rows) (hj' : j < B.cols)
  rw [cell_textbookProduct fits hi' hj']
  exact law.among_of_combines (row_mem_of_members hA ⟨i, hi'⟩) (column_mem_of_members hB ⟨j, hj'⟩)
    (cells i j hi hj hi' hj')

/-- A product of elements is the textbook product if all cells of that are elements. Otherwise it is
refused, and the cell that is named is the first of those that are not. -/
theorem mul_eq_textbook (hA : ∀ a ∈ A.toList, a ∈ d) (hB : ∀ b ∈ B.toList, b ∈ d)
    (fits : A.cols = B.rows) :
    ((∀ c ∈ (textbookProduct d A B fits).toList, c ∈ d) →
      ∃ C, A.mul d B = .ok C ∧ C.Alike same (textbookProduct d A B fits)) ∧
    ∀ i j, (textbookProduct d A B fits).cell i j ∉ d →
      (∀ i' j', i' < i ∨ i' = i ∧ j' < j → (textbookProduct d A B fits).cell i' j' ∈ d) →
      ∃ c, A.mul d B = .error (d.domainError c) ∧
        same c ((textbookProduct d A B fits).cell i j) := by
  have alike := (mul_alike_textbook law hA hB fits).flip
  constructor
  · intro elements
    obtain ⟨C, computed, related⟩ :=
      alike.exists_ok ((checked_eq_ok_iff d).mpr ⟨elements, rfl⟩)
    exact ⟨C, computed, related.rows, related.cols, fun i j hi hj hi' hj' =>
      (related.cell i j hi hj hi' hj').2.2⟩
  · intro i j outside before
    obtain ⟨e, refused, related⟩ := alike.exists_error (checked_eq_error outside before)
    generalize named : d.domainError _ = cause at related
    cases related with
    | @domain c c' matching =>
      obtain rfl := (Error.domain.inj named).2
      exact ⟨c, refused, matching.2.2⟩
    | shape _ => nomatch named
    | notWellDefined _ => nomatch named
    | configuration _ => nomatch named

end Matrix

/-! ### Floating-point numbers -/

theorem AlgebraName.exchanging (n : AlgebraName) :
    (n.dioid : Dioid Float).Exchanging (· == ·) n.terms where
  __ := n.distributive.annihilating
  mem_iff ha hb same := ⟨fun member => n.mem_congr member same,
    fun member => n.mem_congr member (n.distributive.symm ha hb same)⟩
  mul_comm ha hb := by
    rw [n.exchangeable.mul_comm]
    exact n.distributive.refl (n.distributive.mul_term hb ha)

namespace Matrix

/-- A column and a row with a zero and a large number each. -/
def sparseColumn : Matrix Float := .ofVectors #v[#v[0], #v[1e200]]

def sparseRow : Matrix Float := .ofVectors #v[#v[0, 1e200]]

-- a single cell is multiplied as a scalar; of the four outer products only the last overflows
theorem mul_eq_textbook_sparse :
    (∃ C, sparseColumn.mul .maxTimes (singleton 2) = .ok C ∧
      C.Alike (· == ·) (textbookProduct .maxTimes sparseColumn (singleton 2) rfl)) ∧
    ∃ c, sparseColumn.mul .maxTimes sparseRow = .error (Dioid.maxTimes.domainError c) ∧
      c == (1e200 * 1e200 : Float) := by
  have law := AlgebraName.maxTimes.exchanging
  obtain ⟨accepted, -⟩ := mul_eq_textbook law (A := sparseColumn) (B := singleton 2)
    (by decide +kernel) (by decide +kernel) rfl
  obtain ⟨-, refused⟩ := mul_eq_textbook law (A := sparseColumn) (B := sparseRow)
    (by decide +kernel) (by decide +kernel) rfl
  obtain ⟨c, named, same⟩ :=
    refused ⟨1, by decide⟩ ⟨1, by decide⟩ (by decide +kernel) (by decide +kernel)
  have cell : (textbookProduct .maxTimes sparseColumn sparseRow rfl).cell
      ⟨1, by decide⟩ ⟨1, by decide⟩ = (1e200 * 1e200 : Float) := by decide +kernel
  exact ⟨accepted (by decide +kernel), c, named, cell ▸ same⟩

end Matrix

end TropicalAlgebra
