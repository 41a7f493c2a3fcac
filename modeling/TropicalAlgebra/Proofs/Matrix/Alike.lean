import TropicalAlgebra.Matrix.Text
import TropicalAlgebra.Matrix.Powers
import TropicalAlgebra.Proofs.Dioid.Alike
import TropicalAlgebra.Proofs.Matrix.Equality

/-!
# Matrices that are alike

Two matrices of one shape are alike if their cells are related in every position. Over dioids that
compute alike, the matrix operations take related matrices to related outcomes.
-/

namespace TropicalAlgebra

variable {α : Type}

/-- One shape, and related cells in every position. -/
structure Matrix.Alike (R : α → α → Prop) (A B : Matrix α) : Prop where
  rows : A.rows = B.rows
  cols : A.cols = B.cols
  cell : ∀ i j (hi : i < A.rows) (hj : j < A.cols) (hi' : i < B.rows) (hj' : j < B.cols),
    R (A.cell ⟨i, hi⟩ ⟨j, hj⟩) (B.cell ⟨i, hi'⟩ ⟨j, hj'⟩)

namespace Matrix.Alike

variable {R S : α → α → Prop} {A A' B B' : Matrix α}

/-! ### Reading -/

theorem of_cells {m n : Nat} {hm hm' : 0 < m} {hn hn' : 0 < n} {f f' : Fin m → Fin n → α}
    (cells : ∀ i j, R (f i j) (f' i j)) :
    (ofFn m n hm hn f).Alike R (ofFn m n hm' hn' f') where
  rows := rfl
  cols := rfl
  cell i j hi hj hi' hj' := by
    have cell : (ofFn m n hm hn f).cell ⟨i, hi⟩ ⟨j, hj⟩ = f ⟨i, hi⟩ ⟨j, hj⟩ := cell_ofFn _ _
    have cell' : (ofFn m n hm' hn' f').cell ⟨i, hi'⟩ ⟨j, hj'⟩ = f' ⟨i, hi⟩ ⟨j, hj⟩ := cell_ofFn _ _
    rw [cell, cell']
    exact cells _ _

theorem of_map {f : α → α} (each : ∀ a, R a (f a)) (M : Matrix α) : M.Alike R (M.map f) where
  rows := rfl
  cols := rfl
  cell i j hi hj hi' hj' := by
    have cell : (M.map f).cell ⟨i, hi'⟩ ⟨j, hj'⟩ = f (M.cell ⟨i, hi⟩ ⟨j, hj⟩) := cell_map f M _ _
    rw [cell]
    exact each _

variable (alike : A.Alike R A') (alike' : B.Alike R B')

include alike

theorem shape : A.shape = A'.shape := by rw [Matrix.shape, Matrix.shape, alike.rows, alike.cols]

theorem isScalar : A.isScalar = A'.isScalar := by
  rw [Matrix.isScalar, Matrix.isScalar, alike.rows, alike.cols]

theorem isSquare : A.isSquare = A'.isSquare := by
  rw [Matrix.isSquare, Matrix.isSquare, alike.rows, alike.cols]

theorem corner : R A.corner A'.corner :=
  alike.cell 0 0 A.rows_pos A.cols_pos A'.rows_pos A'.cols_pos

theorem row {i : Nat} (hi : i < A.rows) (hi' : i < A'.rows) :
    List.Forall₂ R (A.row ⟨i, hi⟩) (A'.row ⟨i, hi'⟩) := by
  rw [row_eq_ofFn, row_eq_ofFn, List.forall₂_iff_get]
  refine ⟨by simp [alike.cols], fun j h h' => ?_⟩
  rw [List.length_ofFn] at h h'
  simpa using alike.cell i j hi h hi' h'

theorem column {j : Nat} (hj : j < A.cols) (hj' : j < A'.cols) :
    List.Forall₂ R (A.column ⟨j, hj⟩) (A'.column ⟨j, hj'⟩) := by
  rw [column_eq_ofFn, column_eq_ofFn, List.forall₂_iff_get]
  refine ⟨by simp [alike.rows], fun i h h' => ?_⟩
  rw [List.length_ofFn] at h h'
  simpa using alike.cell i j h hj h' hj'

theorem rowLists : List.Forall₂ (List.Forall₂ R) A.rowLists A'.rowLists := by
  rw [List.forall₂_iff_get]
  refine ⟨by simp [Matrix.rowLists, alike.rows], fun i h h' => ?_⟩
  have hi : i < A.rows := by simpa [Matrix.rowLists] using h
  have hi' : i < A'.rows := by simpa [Matrix.rowLists] using h'
  simpa [Matrix.rowLists, Matrix.row] using alike.row hi hi'

theorem toList : List.Forall₂ R A.toList A'.toList := List.rel_flatten alike.rowLists

theorem diagonal : List.Forall₂ R A.diagonal A'.diagonal := by
  rw [Matrix.diagonal, Matrix.diagonal, List.forall₂_iff_get]
  refine ⟨by simp [alike.rows, alike.cols], fun i h h' => ?_⟩
  rw [List.length_ofFn] at h h'
  simpa using alike.cell i i (by omega) (by omega) (by omega) (by omega)

theorem transpose : A.transpose.Alike R A'.transpose where
  rows := alike.cols
  cols := alike.rows
  cell j i hj hi hj' hi' := by
    have cell : A.transpose.cell ⟨j, hj⟩ ⟨i, hi⟩ = A.cell ⟨i, hi⟩ ⟨j, hj⟩ := cell_transpose A _ _
    have cell' : A'.transpose.cell ⟨j, hj'⟩ ⟨i, hi'⟩ = A'.cell ⟨i, hi'⟩ ⟨j, hj'⟩ :=
      cell_transpose A' _ _
    rw [cell, cell']
    exact alike.cell i j hi hj hi' hj'

theorem map {f f' : α → α} (each : ∀ {a a'}, R a a' → S (f a) (f' a')) :
    (A.map f).Alike S (A'.map f') where
  rows := alike.rows
  cols := alike.cols
  cell i j hi hj hi' hj' := by
    have cell : (A.map f).cell ⟨i, hi⟩ ⟨j, hj⟩ = f (A.cell ⟨i, hi⟩ ⟨j, hj⟩) := cell_map f A _ _
    have cell' : (A'.map f').cell ⟨i, hi'⟩ ⟨j, hj'⟩ = f' (A'.cell ⟨i, hi'⟩ ⟨j, hj'⟩) :=
      cell_map f' A' _ _
    rw [cell, cell']
    exact each (alike.cell i j hi hj hi' hj')

include alike'

theorem zipWith {f f' : α → α → α} (each : ∀ {a a' b b'}, R a a' → R b b' → S (f a b) (f' a' b'))
    (hr : A.rows = B.rows) (hc : A.cols = B.cols) (hr' : A'.rows = B'.rows)
    (hc' : A'.cols = B'.cols) :
    (zipWith f A B hr hc).Alike S (zipWith f' A' B' hr' hc') where
  rows := alike.rows
  cols := alike.cols
  cell i j hi hj hi' hj' := by
    have cell : (Matrix.zipWith f A B hr hc).cell ⟨i, hi⟩ ⟨j, hj⟩ =
        f (A.cell ⟨i, hi⟩ ⟨j, hj⟩) (B.cell ⟨i, hr ▸ hi⟩ ⟨j, hc ▸ hj⟩) :=
      cell_zipWith f A B hr hc _ _
    have cell' : (Matrix.zipWith f' A' B' hr' hc').cell ⟨i, hi'⟩ ⟨j, hj'⟩ =
        f' (A'.cell ⟨i, hi'⟩ ⟨j, hj'⟩) (B'.cell ⟨i, hr' ▸ hi'⟩ ⟨j, hc' ▸ hj'⟩) :=
      cell_zipWith f' A' B' hr' hc' _ _
    rw [cell, cell']
    exact each (alike.cell ..) (alike'.cell ..)

theorem products [Scalar α] {d e : Dioid α}
    (dot : ∀ {xs xs' ys ys'}, List.Forall₂ R xs xs' → List.Forall₂ R ys ys' →
      S (d.dot xs ys) (e.dot xs' ys')) :
    (products d A B).Alike S (products e A' B') where
  rows := alike.rows
  cols := alike'.cols
  cell i j hi hj hi' hj' := by
    have cell : (Matrix.products d A B).cell ⟨i, hi⟩ ⟨j, hj⟩ =
        d.dot (A.row ⟨i, hi⟩) (B.column ⟨j, hj⟩) := cell_ofFn _ _
    have cell' : (Matrix.products e A' B').cell ⟨i, hi'⟩ ⟨j, hj'⟩ =
        e.dot (A'.row ⟨i, hi'⟩) (B'.column ⟨j, hj'⟩) := cell_ofFn _ _
    rw [cell, cell']
    exact dot (alike.row hi hi') (alike'.column hj hj')

theorem all₂ {rel : α → α → Bool}
    (each : ∀ {a a' b b'}, R a a' → R b b' → rel a b = rel a' b') :
    all₂ rel A B = all₂ rel A' B' := by
  have cells : (A.toList.zip B.toList).all (fun p => rel p.1 p.2) =
      (A'.toList.zip B'.toList).all fun p => rel p.1 p.2 := by
    have left := alike.toList
    have right := alike'.toList
    generalize A.toList = xs, A'.toList = xs', B.toList = ys, B'.toList = ys' at left right
    induction left generalizing ys ys' with
    | nil => rfl
    | cons first _ ih =>
      cases right with
      | nil => rfl
      | cons first' rest' =>
        rw [List.zip_cons_cons, List.zip_cons_cons, List.all_cons, List.all_cons, ih _ _ rest',
          each first first']
  rw [Matrix.all₂, Matrix.all₂, alike.shape, alike'.shape, cells]

end Matrix.Alike

/-! ### Matrices from lists -/

namespace Matrix

/-- Only the lengths of the rows say which of them is too long or too short. -/
theorem raggedRow?_congr (n : Nat) {rows rows' : List (List α)}
    (lengths : rows.map List.length = rows'.map List.length) :
    raggedRow? n rows = raggedRow? n rows' := by
  have measured (rows : List (List α)) : raggedRow? n rows =
      ((rows.map List.length).zipIdx.find? fun r => r.1 != n).map fun r => (r.2, r.1) := by
    rw [raggedRow?, List.zipIdx_map, List.find?_map, Option.map_map]
    rfl
  rw [measured, measured, lengths]

variable {R : α → α → Prop} {E : Error α → Error α → Prop}
  (shapes : ∀ cause, E (.shape cause) (.shape cause))

include shapes

theorem alike_generate (m n : Nat) {f f' : Nat → Nat → α}
    (cells : ∀ i j, i < m → j < n → R (f i j) (f' i j)) :
    Outcome.Alike E (Matrix.Alike R) (generate m n f) (generate m n f') := by
  unfold generate
  split
  · exact .ok (.of_cells fun i j => cells i j i.isLt j.isLt)
  · exact .error (shapes _)

theorem alike_ofList (m n : Nat) {xs ys : List α} (entries : List.Forall₂ R xs ys) :
    Outcome.Alike E (Matrix.Alike R) (ofList m n xs) (ofList m n ys) := by
  have size : xs.toArray.size = ys.toArray.size := entries.length_eq
  unfold ofList
  by_cases nonempty : 0 < m ∧ 0 < n
  · by_cases fits : xs.toArray.size = m * n
    · have fits' : ys.toArray.size = m * n := size ▸ fits
      simp only [nonempty, fits, fits', and_self, dite_true]
      exact .ok (.of_cells fun i j => entries.get _ _)
    · have fits' : ¬ ys.toArray.size = m * n := size ▸ fits
      simp only [nonempty, fits', and_self, dite_true, dite_false, size]
      exact .error (shapes _)
  · simp only [nonempty, dite_false]
    exact .error (shapes _)

theorem alike_columnVector {xs ys : List α} (entries : List.Forall₂ R xs ys) :
    Outcome.Alike E (Matrix.Alike R) (columnVector xs) (columnVector ys) := by
  rw [columnVector, columnVector, entries.length_eq]
  exact alike_ofList shapes _ _ entries

theorem alike_ofRows {rows rows' : List (List α)}
    (entries : List.Forall₂ (List.Forall₂ R) rows rows') :
    Outcome.Alike E (Matrix.Alike R) (ofRows rows) (ofRows rows') := by
  have width : (rows.head?.map List.length).getD 0 = (rows'.head?.map List.length).getD 0 := by
    cases entries with
    | nil => rfl
    | cons first _ => exact first.length_eq
  have ragged (n : Nat) : raggedRow? n rows = raggedRow? n rows' :=
    raggedRow?_congr n (List.forall₂_eq_eq_eq ▸ List.rel_map (fun _ _ h => h.length_eq) entries)
  unfold ofRows
  simp only [width, ragged, entries.length_eq]
  split
  · exact .error (shapes _)
  · exact alike_ofList shapes _ _ (List.rel_flatten entries)

theorem alike_requireSquare {A A' : Matrix α} (alike : A.Alike R A') :
    Outcome.Alike E (fun _ _ => True) A.requireSquare A'.requireSquare := by
  unfold requireSquare
  rw [← alike.shape]
  exact .of_require (by rw [alike.isSquare]) (shapes _)

end Matrix

/-! ### Operations -/

namespace Matrix.Alike

variable {R : α → α → Prop} {d e : Dioid α} {A A' : Matrix α} (h : A.Alike R A')
  (mem_iff : ∀ {a a'}, R a a' → (a ∈ d ↔ a' ∈ e))

include h mem_iff

/-- If related scalars are elements together, then so are the cells of related matrices, and the
first cells that are not are related. -/
theorem validate_of_mem_iff :
    Outcome.Alike (Error.Alike R d e) (fun _ _ => True) (A.validate d) (A'.validate e) := by
  have outside {xs xs' : List α} (entries : List.Forall₂ R xs xs') :
      Option.Rel R (xs.find? fun a => !d.contains a) (xs'.find? fun a => !e.contains a) := by
    induction entries with
    | nil => exact .none
    | @cons a a' _ _ first _ ih =>
      have same : d.contains a = e.contains a' := Bool.eq_iff_iff.mpr (mem_iff first)
      rw [List.find?_cons, List.find?_cons, ← same]
      split
      · exact .some first
      · exact ih
  unfold Matrix.validate
  generalize A.toList.find? _ = found, A'.toList.find? _ = found', outside h.toList = related
  cases related with
  | none => exact .ok trivial
  | some related => exact .error (.domain related)

theorem checked_of_mem_iff :
    Outcome.Alike (Error.Alike R d e) (Matrix.Alike R) (A.checked d) (A'.checked e) :=
  (h.validate_of_mem_iff mem_iff).bind fun _ => .ok h

end Matrix.Alike

namespace Dioid.Alike

open Outcome

variable [Scalar α] {R : α → α → Prop} {d e : Dioid α} (alike : Dioid.Alike R d e)
  {A A' B B' : Matrix α}

include alike

theorem matrixOrderEq (h : A.Alike R A') (k : B.Alike R B') : A.orderEq B = A'.orderEq B' :=
  h.all₂ k alike.orderEq

theorem matrixApproxEq (tolerance : α) (h : A.Alike R A') (k : B.Alike R B') :
    A.approxEq tolerance B = A'.approxEq tolerance B' :=
  h.all₂ k (alike.approxEq tolerance)

theorem pseudoInverse (h : A.Alike R A') : (A.pseudoInverse d).Alike R (A'.pseudoInverse e) :=
  h.transpose.map alike.inv

theorem identityOfPos (size : Nat) (pos pos' : 0 < size) :
    (Matrix.identityOfPos d size pos).Alike R (Matrix.identityOfPos e size pos') := by
  refine .of_cells fun i j => ?_
  unfold Matrix.identityCell
  split
  · exact alike.one
  · exact alike.zero

theorem validate (h : A.Alike R A') :
    Outcome.Alike (Error.Alike R d e) (fun _ _ => True) (A.validate d) (A'.validate e) :=
  h.validate_of_mem_iff alike.mem_iff

theorem checked (h : A.Alike R A') :
    Outcome.Alike (Error.Alike R d e) (Matrix.Alike R) (A.checked d) (A'.checked e) :=
  h.checked_of_mem_iff alike.mem_iff

theorem scale {a a' : α} (h : A.Alike R A') (k : R a a') :
    Outcome.Alike (Error.Alike R d e) (Matrix.Alike R) (A.scale d a) (A'.scale e a') := by
  refine (alike.element k).bind fun {a a'} k => ?_
  rw [← alike.isZero k]
  split
  · exact .ok (h.map fun _ => alike.zero)
  · refine alike.checked (h.map fun {b b'} related => ?_)
    unfold Matrix.scaleCell
    rw [← alike.isZero related]
    split
    · exact related
    · exact alike.mul related k

theorem products (h : A.Alike R A') (k : B.Alike R B') :
    (Matrix.products d A B).Alike R (Matrix.products e A' B') :=
  Matrix.Alike.products h k alike.dot

theorem matrixMul (h : A.Alike R A') (k : B.Alike R B') :
    Outcome.Alike (Error.Alike R d e) (Matrix.Alike R) (A.mul d B) (A'.mul e B') := by
  unfold Matrix.mul
  rw [← h.isScalar, ← k.isScalar, ← h.shape, ← k.shape, ← h.cols, ← k.rows]
  split
  · exact alike.scale k h.corner
  · split
    · exact alike.scale h k.corner
    · split
      · exact alike.checked (alike.products h k)
      · exact .error (.shape _)

theorem addCell {a a' b b' : α} (h : R a a') (k : R b b') :
    R (Matrix.addCell d a b) (Matrix.addCell e a' b') := by
  unfold Matrix.addCell
  rw [← alike.isZero h, ← alike.isZero k]
  split
  · exact k
  · split
    · exact h
    · exact alike.add h k

theorem matrixAdd (h : A.Alike R A') (k : B.Alike R B') :
    Outcome.Alike (Error.Alike R d e) (Matrix.Alike R) (A.add d B) (A'.add e B') := by
  unfold Matrix.add
  rw [← h.shape, ← k.shape]
  by_cases fits : A.rows = B.rows ∧ A.cols = B.cols
  · have fits' : A'.rows = B'.rows ∧ A'.cols = B'.cols := by
      rwa [← h.rows, ← k.rows, ← h.cols, ← k.cols]
    rw [dif_pos fits, dif_pos fits']
    exact alike.checked (h.zipWith k alike.addCell fits.1 fits.2 fits'.1 fits'.2)
  · have fits' : ¬ (A'.rows = B'.rows ∧ A'.cols = B'.cols) := by
      rwa [← h.rows, ← k.rows, ← h.cols, ← k.cols]
    rw [dif_neg fits, dif_neg fits']
    exact .error (.shape _)

end Dioid.Alike

end TropicalAlgebra
