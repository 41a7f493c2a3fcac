import Mathlib.Data.List.Forall2
import TropicalAlgebra.Matrix.Text

/-!
# Equality of matrices

Comparing two matrices cell by cell, in lists, is the same as comparing them position by position.
-/

namespace TropicalAlgebra

namespace Matrix

variable {α : Type}

private theorem all_zip_flatten (rel : α → α → Bool) {xs ys : List (List α)}
    (same : List.Forall₂ (fun x y => x.length = y.length) xs ys) :
    (xs.flatten.zip ys.flatten).all (fun p => rel p.1 p.2) =
      (xs.zip ys).all fun p => (p.1.zip p.2).all fun q => rel q.1 q.2 := by
  induction same with
  | nil => rfl
  | cons first _ ih => simp [List.zip_append first, ih]

private theorem all_zip_toList {n : Nat} (test : α × α → Bool) (x y : Vector α n) :
    (x.toList.zip y.toList).all test = true ↔
      ∀ (i : Nat) (h : i < n), test (x[i], y[i]) = true := by
  rw [List.all_eq_true]
  constructor
  · intro holds i h
    have member : (x[i], y[i]) ∈ x.toList.zip y.toList :=
      List.mem_iff_getElem.mpr ⟨i, by simpa using h, by simp⟩
    exact holds _ member
  · intro holds p hp
    obtain ⟨i, hi, rfl⟩ := List.mem_iff_getElem.mp hp
    have bound : i < n := by simpa using hi
    simpa using holds i bound

private theorem all_zip_cells {r c : Nat} (rel : α → α → Bool) (x y : Vector (Vector α c) r) :
    ((x.toList.map Vector.toList).flatten.zip (y.toList.map Vector.toList).flatten).all
        (fun p => rel p.1 p.2) = true ↔
      ∀ (i : Fin r) (j : Fin c), rel x[i][j] y[i][j] = true := by
  rw [all_zip_flatten rel (by simp [List.forall₂_iff_get]), ← Vector.toList_map,
    ← Vector.toList_map, all_zip_toList]
  constructor
  · intro holds i j
    have rowsAgree := holds i i.isLt
    simp only [Vector.getElem_map, all_zip_toList] at rowsAgree
    exact rowsAgree j j.isLt
  · intro holds i hi
    simp only [Vector.getElem_map, all_zip_toList]
    intro j hj
    exact holds ⟨i, hi⟩ ⟨j, hj⟩

/-- Comparing all cells is comparing the cells at all positions. -/
theorem all₂_iff (rel : α → α → Bool) {A B : Matrix α} :
    all₂ rel A B = true ↔ ∃ (hr : A.rows = B.rows) (hc : A.cols = B.cols),
      ∀ i j, rel (A.cell i j) (B.cell (i.cast hr) (j.cast hc)) = true := by
  have shapes : (A.shape == B.shape) = true ↔ A.rows = B.rows ∧ A.cols = B.cols := by
    simp [shape]
  rw [all₂, Bool.and_eq_true, shapes, ← exists_prop]
  constructor
  · rintro ⟨⟨hr, hc⟩, cells⟩
    refine ⟨hr, hc, ?_⟩
    obtain ⟨r, c, a, _, _⟩ := A
    obtain ⟨r', c', b, _, _⟩ := B
    obtain rfl : r = r' := hr
    obtain rfl : c = c' := hc
    exact (all_zip_cells rel a b).mp cells
  · rintro ⟨hr, hc, cells⟩
    refine ⟨⟨hr, hc⟩, ?_⟩
    obtain ⟨r, c, a, _, _⟩ := A
    obtain ⟨r', c', b, _, _⟩ := B
    obtain rfl : r = r' := hr
    obtain rfl : c = c' := hc
    exact (all_zip_cells rel a b).mpr cells

/-- Two matrices are equal if their shapes are and their cells are equal as scalars. -/
instance [BEq α] : BEq (Matrix α) := ⟨all₂ (· == ·)⟩

theorem beq_iff [BEq α] {A B : Matrix α} :
    (A == B) = true ↔ ∃ (hr : A.rows = B.rows) (hc : A.cols = B.cols),
      ∀ i j, (A.cell i j == B.cell (i.cast hr) (j.cast hc)) = true :=
  all₂_iff _

end Matrix

end TropicalAlgebra
