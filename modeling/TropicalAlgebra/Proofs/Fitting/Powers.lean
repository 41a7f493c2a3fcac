import TropicalAlgebra.Fitting.ExponentRange
import TropicalAlgebra.Proofs.Matrix.FromLists
import TropicalAlgebra.Proofs.Outcome

/-!
# The matrix of powers

The row of a point holds its powers with the exponents of the range. Whether there is a matrix of
powers is a question of the range and of each point by itself.
-/

namespace TropicalAlgebra

open Outcome

namespace ExponentRange

theorem length_pos {r : ExponentRange} (order : r.left ≤ r.right) : 0 < r.length := by
  unfold length
  omega

theorem check_bind_eq_ok_iff {α β : Type} {r : ExponentRange} {next : Unit → Outcome α β} {b : β} :
    r.check >>= next = .ok b ↔ (r.left ≤ r.right ∧ r.d ≠ 0) ∧ next () = .ok b := by
  rw [check, bind_assoc, require_bind_eq_ok_iff, require_bind_eq_ok_iff, and_assoc]

end ExponentRange

namespace Matrix

variable {α : Type}

/-- Rows of one positive length are the rows of a matrix. -/
theorem exists_ofRows {rows : List (List α)} {n : Nat} (nonempty : rows ≠ []) (pos : 0 < n)
    (uniform : ∀ r ∈ rows, r.length = n) :
    ∃ M, ofRows rows = .ok M ∧ M.rows = rows.length ∧ M.cols = n ∧
      ∀ i (h : i < M.rows) (h' : i < rows.length), M.row ⟨i, h⟩ = rows[i] := by
  have length (i : Fin rows.length) : (rows.get i).length = n := uniform _ (List.get_mem _ _)
  let f (i : Fin rows.length) (j : Fin n) : α := (rows.get i).get (j.cast (length i).symm)
  have row (i : Fin rows.length) : List.ofFn (f i) = rows.get i := by
    apply List.ext_getElem (by rw [List.length_ofFn, length])
    intro j hj hj'
    simp [f]
  have same : (List.ofFn fun i => List.ofFn (f i)) = rows := by
    simp only [row, List.ofFn_get]
  have built := ofRows_ofFn (List.length_pos_iff.mpr nonempty) pos f
  rw [same] at built
  refine ⟨_, built, rfl, rfl, fun i h h' => ?_⟩
  have height := List.length_pos_iff.mpr nonempty
  have cells : (ofFn rows.length n height pos f).cell ⟨i, h⟩ = f ⟨i, h'⟩ :=
    funext fun j => cell_ofFn _ _
  rw [row_eq_ofFn, cells]
  exact row ⟨i, h'⟩

variable [Scalar α] {d : Dioid α} {points : List α} {range : ExponentRange}

/-- The powers of a point with the exponents of the range. -/
def powersOf (d : Dioid α) (range : ExponentRange) (x : α) : Outcome α (List α) :=
  range.exponents.mapM fun e => d.pow x e

/-- The rows of powers, if all of them exist, make up a matrix. -/
theorem ofPowers_of_rows (order : range.left ≤ range.right) (denominator : range.d ≠ 0)
    (given : points ≠ []) {rows : List (List α)}
    (powers : List.Forall₂ (fun x row => powersOf d range x = .ok row) points rows) :
    ∃ X, ofPowers d points range = .ok X ∧ X.rows = points.length ∧ X.cols = range.length ∧
      ∀ i (h : i < X.rows) (h' : i < points.length),
        powersOf d range points[i] = .ok (X.row ⟨i, h⟩) := by
  have count := powers.length_eq
  have nonempty : rows ≠ [] := by
    rw [← List.length_pos_iff, ← count]
    exact List.length_pos_iff.mpr given
  have uniform : ∀ r ∈ rows, r.length = range.length := by
    intro r hr
    obtain ⟨i, hi, rfl⟩ := List.mem_iff_getElem.mp hr
    have row := powers.get (count ▸ hi) hi
    exact (mapM_eq_ok_iff.mp row).length_eq.symm.trans range.length_exponents
  obtain ⟨X, built, height, width, entries⟩ :=
    exists_ofRows nonempty (ExponentRange.length_pos order) uniform
  refine ⟨X, ?_, height.trans count.symm, width, fun i h h' => ?_⟩
  · refine ExponentRange.check_bind_eq_ok_iff.mpr ⟨⟨order, denominator⟩, ?_⟩
    refine require_bind_eq_ok_iff.mpr ⟨given, ?_⟩
    exact bind_eq_ok_iff.mpr ⟨_, mapM_eq_ok_iff.mpr powers, built⟩
  · rw [entries i h (count ▸ h')]
    exact powers.get h' (count ▸ h')

theorem ofPowers_eq_ok {X : Matrix α} (computed : ofPowers d points range = .ok X) :
    (range.left ≤ range.right ∧ range.d ≠ 0) ∧ points ≠ [] ∧
      X.rows = points.length ∧ X.cols = range.length ∧
      ∀ i (h : i < X.rows) (h' : i < points.length),
        powersOf d range points[i] = .ok (X.row ⟨i, h⟩) := by
  obtain ⟨⟨order, denominator⟩, rest⟩ := ExponentRange.check_bind_eq_ok_iff.mp computed
  obtain ⟨given, rest⟩ := require_bind_eq_ok_iff.mp rest
  obtain ⟨rows, powers, -⟩ := bind_eq_ok_iff.mp rest
  obtain ⟨X', computed', reading⟩ :=
    ofPowers_of_rows order denominator given (mapM_eq_ok_iff.mp powers)
  obtain rfl := Except.ok.inj (computed'.symm.trans computed)
  exact ⟨⟨order, denominator⟩, given, reading⟩

theorem ofPowers_mem (zero : d.zero ∈ d) (one : d.one ∈ d) {X : Matrix α}
    (computed : ofPowers d points range = .ok X) : ∀ a ∈ X.toList, a ∈ d := by
  obtain ⟨-, -, height, -, rows⟩ := ofPowers_eq_ok computed
  intro a ha
  obtain ⟨⟨i, hi⟩, ⟨j, hj⟩, rfl⟩ := mem_toList.mp ha
  have powers := mapM_eq_ok_iff.mp (rows i hi (height ▸ hi))
  have inside : j < (X.row ⟨i, hi⟩).length := by simpa using hj
  have power := powers.get (powers.length_eq ▸ inside) inside
  refine Dioid.pow_mem zero one (power.trans (congrArg Except.ok ?_))
  simp [row, cell]

/-- Whether there is a matrix of powers depends on the set of the points. -/
theorem exists_ofPowers_iff : (∃ X, ofPowers d points range = .ok X) ↔
    (range.left ≤ range.right ∧ range.d ≠ 0) ∧ points ≠ [] ∧
      ∀ x ∈ points, ∃ row, powersOf d range x = .ok row := by
  constructor
  · rintro ⟨X, computed⟩
    obtain ⟨valid, given, height, -, rows⟩ := ofPowers_eq_ok computed
    refine ⟨valid, given, fun x hx => ?_⟩
    obtain ⟨i, hi, rfl⟩ := List.mem_iff_getElem.mp hx
    exact ⟨_, rows i (height.symm ▸ hi) hi⟩
  · rintro ⟨⟨order, denominator⟩, given, powers⟩
    choose! row computed using powers
    obtain ⟨X, built, -⟩ := ofPowers_of_rows order denominator given
      (List.forall₂_map_right_iff.mpr (List.forall₂_same.mpr computed))
    exact ⟨X, built⟩

end Matrix

end TropicalAlgebra
