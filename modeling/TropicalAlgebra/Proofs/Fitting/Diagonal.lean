import TropicalAlgebra.Fitting.ExponentRange
import TropicalAlgebra.Proofs.Matrix.AlongProducts

/-!
# Diagonal matrices

A diagonal matrix multiplies every row of a matrix by the value that stands there.
-/

namespace TropicalAlgebra

open Outcome

namespace Matrix

variable {α : Type}

/-- The values on the diagonal, all of them elements, and zero elsewhere. -/
structure IsDiagonal (d : Dioid α) (values : List α) (Y : Matrix α) : Prop where
  rows : Y.rows = values.length
  cols : Y.cols = values.length
  mem : ∀ v ∈ values, v ∈ d
  cell : ∀ i j (hi : i < Y.rows) (hj : j < Y.cols) (h : i < values.length),
    Y.cell ⟨i, hi⟩ ⟨j, hj⟩ = if i = j then values[i] else d.zero

variable {d : Dioid α} {values : List α} {Y : Matrix α}

theorem mapM_element_eq_ok_iff {accepted : List α} :
    values.mapM d.element = .ok accepted ↔ (∀ v ∈ values, v ∈ d) ∧ values = accepted := by
  simp only [mapM_eq_ok_iff, Dioid.element_eq_ok_iff]
  rw [List.forall₂_and_left, List.forall₂_eq_eq_eq]

private theorem ofDiagonal_of_elements (given : values ≠ []) (members : ∀ v ∈ values, v ∈ d) :
    ∃ Y, ofDiagonal d values = .ok Y ∧ Y.IsDiagonal d values := by
  have pos := List.length_pos_iff.mpr given
  refine ⟨ofFn values.length values.length pos pos fun i j =>
    if i.val = j.val then values[i] else d.zero, ?_, rfl, rfl, members, ?_⟩
  · refine require_bind_eq_ok_iff.mpr ⟨given, bind_eq_ok_iff.mpr ⟨values, ?_, ?_⟩⟩
    · exact mapM_element_eq_ok_iff.mpr ⟨members, rfl⟩
    · rw [generate, dif_pos ⟨pos, pos⟩]
      simp
  · intro i j hi hj h
    exact cell_ofFn _ _

theorem exists_ofDiagonal_iff :
    (∃ Y, ofDiagonal d values = .ok Y) ↔ values ≠ [] ∧ ∀ v ∈ values, v ∈ d := by
  constructor
  · rintro ⟨Y, computed⟩
    obtain ⟨given, rest⟩ := require_bind_eq_ok_iff.mp computed
    obtain ⟨accepted, elements, -⟩ := bind_eq_ok_iff.mp rest
    exact ⟨given, (mapM_element_eq_ok_iff.mp elements).1⟩
  · rintro ⟨given, members⟩
    obtain ⟨Y, computed, -⟩ := ofDiagonal_of_elements given members
    exact ⟨Y, computed⟩

theorem isDiagonal_of_ofDiagonal (computed : ofDiagonal d values = .ok Y) :
    Y.IsDiagonal d values := by
  obtain ⟨given, members⟩ := exists_ofDiagonal_iff.mp ⟨Y, computed⟩
  obtain ⟨Y', computed', diagonal⟩ := ofDiagonal_of_elements given members
  obtain rfl := Except.ok.inj (computed'.symm.trans computed)
  exact diagonal

end Matrix

variable {α : Type} [Scalar α] {d : Dioid α}

/-- A sum of products in which all but one of the first factors are zero. -/
theorem Dioid.Distributive.dot_eq_mul {factors terms : Set α} (law : d.Distributive factors terms)
    {xs ys : List α} (hxs : ∀ a ∈ xs, a ∈ factors) (hys : ∀ a ∈ ys, a ∈ factors) {p : α × α}
    (hp : p ∈ xs.zip ys) (others : ∀ q ∈ xs.zip ys, q = p ∨ d.isZero q.1 = true) :
    d.dot xs ys == d.mul p.1 p.2 := by
  have total := law.dot_term hxs hys
  have product := law.mul_term (hxs _ (List.of_mem_zip hp).1) (hys _ (List.of_mem_zip hp).2)
  refine law.joins.le_antisymm total product ?_ ?_
  · refine (law.dot_le_iff hxs hys product).mpr fun q hq => ?_
    rcases others q hq with rfl | empty
    · exact law.joins.le_refl product
    · exact law.mul_le_of_isZero_left (hxs _ (List.of_mem_zip hq).1)
        (hys _ (List.of_mem_zip hq).2) product empty
  · exact (law.dot_le_iff hxs hys total).mp (law.joins.le_refl total) p hp

namespace Matrix.IsDiagonal

variable {values : List α} {X Y : Matrix α} {terms : Set α}

omit [Scalar α] in
theorem members (diagonal : Y.IsDiagonal d values) (zero : d.zero ∈ d) :
    ∀ a ∈ Y.toList, a ∈ d := by
  intro a ha
  obtain ⟨⟨i, hi⟩, ⟨j, hj⟩, rfl⟩ := mem_toList.mp ha
  rw [diagonal.cell i j hi hj (diagonal.rows ▸ hi)]
  split
  · exact diagonal.mem _ (List.getElem_mem _)
  · exact zero

theorem dot_eq_mul (law : d.Distributive d.elements terms) (diagonal : Y.IsDiagonal d values)
    (members : ∀ a ∈ X.toList, a ∈ d) {i j : Nat} (hi : i < Y.rows) (hk : i < X.rows)
    (hj : j < X.cols) (h : i < values.length) :
    d.dot (Y.row ⟨i, hi⟩) (X.column ⟨j, hj⟩) == d.mul values[i] (X.cell ⟨i, hk⟩ ⟨j, hj⟩) := by
  have hc : i < Y.cols := diagonal.cols ▸ h
  have own : Y.cell ⟨i, hi⟩ ⟨i, hc⟩ = values[i] := by rw [diagonal.cell i i hi hc h, if_pos rfl]
  have result := law.dot_eq_mul (row_mem_of_members (diagonal.members law.zero_factor) ⟨i, hi⟩)
    (column_mem_of_members members ⟨j, hj⟩) (mem_zip_row_column.mpr ⟨i, hc, hk, rfl⟩) ?_
  · rwa [own] at result
  intro q hq
  obtain ⟨k, hk', hk₁, rfl⟩ := mem_zip_row_column.mp hq
  by_cases onDiagonal : i = k
  · subst onDiagonal
    exact .inl rfl
  · refine .inr ?_
    rw [diagonal.cell i k hi hk' h, if_neg onDiagonal]
    exact law.isZero_zero

end Matrix.IsDiagonal

end TropicalAlgebra
