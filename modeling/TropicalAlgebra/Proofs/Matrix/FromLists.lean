import Mathlib.Data.List.OfFn
import TropicalAlgebra.Matrix

/-!
# Matrices from lists

A matrix that is built from its rows, or from one column, has the cells that stand there.
-/

namespace TropicalAlgebra

namespace Matrix

variable {α : Type} {m n : Nat} {xs : List α}

theorem ofList_ofFn (hm : 0 < m) (hn : 0 < n) (g : Fin (m * n) → α) :
    ofList m n (List.ofFn g) =
      .ok (ofFn m n hm hn fun i j => g ⟨i * n + j, offset_lt i.isLt j.isLt⟩) := by
  unfold ofList
  have size : (List.ofFn g).toArray.size = m * n := by simp
  simp only [hm, hn, size, and_self, dite_true]
  simp

theorem raggedRow?_eq_none {rows : List (List α)} (uniform : ∀ r ∈ rows, r.length = n) :
    raggedRow? n rows = none := by
  rw [raggedRow?, Option.map_eq_none_iff, List.find?_eq_none]
  rintro ⟨r, i⟩ member
  simp [uniform r (List.fst_mem_of_mem_zipIdx member)]

-- the cell at `(i, j)` is number `i * n + j` of the list
theorem divNat_offset (i : Fin m) (j : Fin n) (h : i * n + j < m * n) :
    (⟨i * n + j, h⟩ : Fin (m * n)).divNat = i := by
  apply Fin.ext
  change (i * n + j) / n = i
  rw [Nat.mul_comm, Nat.mul_add_div j.pos, Nat.div_eq_of_lt j.isLt, Nat.add_zero]

theorem modNat_offset (i : Fin m) (j : Fin n) (h : i * n + j < m * n) :
    (⟨i * n + j, h⟩ : Fin (m * n)).modNat = j := by
  apply Fin.ext
  change (i * n + j) % n = j
  rw [Nat.mul_comm, Nat.mul_add_mod, Nat.mod_eq_of_lt j.isLt]

theorem flatten_ofFn (f : Fin m → Fin n → α) :
    (List.ofFn fun i => List.ofFn (f i)).flatten =
      List.ofFn fun k : Fin (m * n) => f k.divNat k.modNat := by
  rw [List.ofFn_mul]
  simp only [divNat_offset, modNat_offset]

theorem ofRows_ofFn (hm : 0 < m) (hn : 0 < n) (f : Fin m → Fin n → α) :
    ofRows (List.ofFn fun i => List.ofFn (f i)) = .ok (ofFn m n hm hn f) := by
  -- the first row sets the width, and no row differs from it
  have width : ((List.ofFn fun i => List.ofFn (f i)).head?.map List.length).getD 0 = n := by
    obtain ⟨k, rfl⟩ : ∃ k, m = k + 1 := ⟨m - 1, by omega⟩
    simp [List.ofFn_succ]
  have uniform : raggedRow? n (List.ofFn fun i => List.ofFn (f i)) = none := by
    apply raggedRow?_eq_none
    intro r member
    obtain ⟨i, rfl⟩ := (List.mem_ofFn' _ _).mp member
    exact List.length_ofFn
  simp only [ofRows, width, uniform, List.length_ofFn, flatten_ofFn, ofList_ofFn hm hn,
    divNat_offset, modNat_offset]

theorem columnVector_ofFn (hm : 0 < m) (f : Fin m → α) :
    columnVector (List.ofFn f) = .ok (ofFn m 1 hm Nat.one_pos fun i _ => f i) := by
  -- a list of `m` entries is one of `m * 1`
  have single : List.ofFn f = List.ofFn fun k : Fin (m * 1) => f (k.cast (Nat.mul_one m)) :=
    List.ofFn_congr (Nat.mul_one m).symm f
  rw [columnVector, List.length_ofFn, single, ofList_ofFn hm Nat.one_pos]
  simp

private theorem columnVector_of_ne_nil (given : xs ≠ []) :
    columnVector xs = .ok (ofFn xs.length 1 (List.length_pos_iff.mpr given) Nat.one_pos
      fun i _ => xs[i]) := by
  have column := columnVector_ofFn (List.length_pos_iff.mpr given) xs.get
  rw [List.ofFn_get] at column
  exact column

theorem exists_columnVector_iff : (∃ y, columnVector xs = .ok y) ↔ xs ≠ [] := by
  constructor
  · rintro ⟨y, computed⟩ rfl
    nomatch computed
  · intro given
    exact ⟨_, columnVector_of_ne_nil given⟩

theorem columnVector_eq_ok {y : Matrix α} (computed : columnVector xs = .ok y) :
    y.rows = xs.length ∧ y.cols = 1 ∧
      ∀ i j (hi : i < y.rows) (hj : j < y.cols) (h : i < xs.length),
        y.cell ⟨i, hi⟩ ⟨j, hj⟩ = xs[i] := by
  have given := exists_columnVector_iff.mp ⟨y, computed⟩
  obtain rfl := Except.ok.inj ((columnVector_of_ne_nil given).symm.trans computed)
  exact ⟨rfl, rfl, fun i j hi hj h => cell_ofFn _ _⟩

theorem toList_eq_column {x : Matrix α} (single : x.cols = 1) :
    x.toList = x.column ⟨0, x.cols_pos⟩ := by
  obtain ⟨r, c, cells, _, _⟩ := x
  obtain rfl : c = 1 := single
  have singletons : (Vector.toList : Vector α 1 → List α) = fun v => [v[0]] := by
    funext v
    apply List.ext_getElem (by simp)
    intro i hi hi'
    obtain rfl : i = 0 := by simpa using hi'
    simp
  unfold toList rowLists column
  rw [singletons, ← List.flatMap_def, ← List.map_eq_flatMap]
  rfl

end Matrix

end TropicalAlgebra
