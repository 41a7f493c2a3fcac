import TropicalAlgebra.Proofs.Dioid.Binary64
import TropicalAlgebra.Proofs.Matrix.Along
import TropicalAlgebra.Proofs.Matrix.Products

/-!
# Products without shortcuts

A matrix with a single cell takes part in a product as a scalar, from whichever side, and zero
factors are left out. If the other factor has a fitting shape, and the dioid lets factors be
exchanged, then none of this shows: the product is there exactly if all sums of products along the
rows and columns are elements, and then these are its cells.
-/

namespace TropicalAlgebra

variable {α : Type} [Scalar α]

namespace Dioid

/-- Factors can be exchanged, a product with zero is zero, and what equals zero is an element. -/
structure Exchangeable (d : Dioid α) : Prop where
  one_mem : d.one ∈ d
  refl : ∀ {a}, a ∈ d → a == a
  isZero_zero : d.isZero d.zero = true
  mem_of_isZero : ∀ {a}, d.isZero a = true → a ∈ d
  mul_comm : ∀ a b, d.mul a b = d.mul b a
  isZero_mul : ∀ {a b}, a ∈ d → b ∈ d → d.isZero b = true → d.isZero (d.mul a b) = true

namespace Exchangeable

variable {d : Dioid α} (law : d.Exchangeable) {a b : α}

include law

theorem zero_mem : d.zero ∈ d := law.mem_of_isZero law.isZero_zero

theorem sum_singleton (a : α) : d.sum [a] = if d.isZero a then d.zero else a := by
  unfold sum
  by_cases empty : d.isZero a = true
  · rw [if_pos empty]
    simp [empty]
  · rw [if_neg empty]
    simp [empty, accumulate, law.isZero_zero]

/-- The sum of a single product. -/
theorem dot_singleton (a b : α) :
    d.dot [a] [b] =
      if d.isZero a || d.isZero b then d.zero
      else if d.isZero (d.mul a b) then d.zero else d.mul a b := by
  have terms : ([a].zip [b]).filterMap d.term? = (d.term? (a, b)).toList := by
    cases formed : d.term? (a, b) <;> simp [formed]
  rw [dot, terms, term?]
  split
  · rfl
  · exact law.sum_singleton _

theorem dot_singleton_comm (a b : α) : d.dot [a] [b] = d.dot [b] [a] := by
  rw [law.dot_singleton, law.dot_singleton, law.mul_comm a b, Bool.or_comm]

end Exchangeable

end Dioid

namespace Matrix

variable {d : Dioid α} {A B M N : Matrix α}

omit [Scalar α] in
theorem row_of_cols_eq_one (single : A.cols = 1) {i : Nat} (hi : i < A.rows) :
    A.row ⟨i, hi⟩ = [A.cell ⟨i, hi⟩ ⟨0, A.cols_pos⟩] := by
  apply List.ext_getElem (by simp [single])
  intro j hj hj'
  obtain rfl : j = 0 := by simpa using hj'
  simp [row, cell]

omit [Scalar α] in
theorem column_of_rows_eq_one (single : A.rows = 1) {j : Nat} (hj : j < A.cols) :
    A.column ⟨j, hj⟩ = [A.cell ⟨0, A.rows_pos⟩ ⟨j, hj⟩] := by
  apply List.ext_getElem (by simp [single])
  intro i hi hi'
  obtain rfl : i = 0 := by simpa using hi'
  simp [column, cell]

omit [Scalar α] in
theorem isScalar_iff : A.isScalar = true ↔ A.rows = 1 ∧ A.cols = 1 := by simp [isScalar]

/-- What a product with fitting shapes makes of a row and a column: the sum of the products, or, if
both are single cells, a multiple of either by the other. -/
inductive Combines (d : Dioid α) : List α → List α → α → Prop
  | dot (xs ys : List α) : Combines d xs ys (d.dot xs ys)
  | left (a b : α) : Combines d [a] [b] (multipleCell d a b)
  | right (a b : α) : Combines d [a] [b] (multipleCell d b a)

/-- Whether or not a factor is a single cell, a product is checked cell by cell. -/
theorem exists_mul_eq_checked (hA : ∀ a ∈ A.toList, a ∈ d) (hB : ∀ b ∈ B.toList, b ∈ d)
    (zero : ∀ {a}, a ∈ d → d.isZero a = true → d.zero ∈ d) (fits : A.cols = B.rows) :
    ∃ N : Matrix α, A.mul d B = N.checked d ∧ N.rows = A.rows ∧ N.cols = B.cols ∧
      ∀ i j (hi : i < N.rows) (hj : j < N.cols) (hi' : i < A.rows) (hj' : j < B.cols),
        Combines d (A.row ⟨i, hi'⟩) (B.column ⟨j, hj'⟩) (N.cell ⟨i, hi⟩ ⟨j, hj⟩) := by
  have cornerA : A.corner ∈ d := hA _ (mem_toList.mpr ⟨_, _, rfl⟩)
  have cornerB : B.corner ∈ d := hB _ (mem_toList.mpr ⟨_, _, rfl⟩)
  unfold Matrix.mul
  split
  next single =>
    -- a cell times a row
    obtain ⟨rows, cols⟩ := isScalar_iff.mp single
    refine ⟨_, scale_eq_checked (zero cornerA) cornerA, (rows.trans (cols.symm.trans fits)).symm,
      rfl, ?_⟩
    intro i j (hi : i < B.rows) (hj : j < B.cols) hi' hj'
    have multiple : (B.map (multipleCell d A.corner)).cell ⟨i, hi⟩ ⟨j, hj⟩ =
        multipleCell d A.corner (B.cell ⟨i, hi⟩ ⟨j, hj⟩) := cell_map _ B _ _
    obtain rfl : i = 0 := by omega
    rw [multiple, row_of_cols_eq_one cols, column_of_rows_eq_one (fits ▸ cols)]
    exact .left _ _
  next =>
    split
    next single =>
      -- a column times a cell
      obtain ⟨rows, cols⟩ := isScalar_iff.mp single
      refine ⟨_, scale_eq_checked (zero cornerB) cornerB, rfl, fits.trans (rows.trans cols.symm),
        ?_⟩
      intro i j (hi : i < A.rows) (hj : j < A.cols) hi' hj'
      have multiple : (A.map (multipleCell d B.corner)).cell ⟨i, hi⟩ ⟨j, hj⟩ =
          multipleCell d B.corner (A.cell ⟨i, hi⟩ ⟨j, hj⟩) := cell_map _ A _ _
      obtain rfl : j = 0 := by omega
      rw [multiple, row_of_cols_eq_one (fits.trans rows), column_of_rows_eq_one rows]
      exact .right _ _
    next =>
      refine ⟨products d A B, rfl, rfl, rfl, ?_⟩
      intro i j (hi : i < A.rows) (hj : j < B.cols) hi' hj'
      have cell : (products d A B).cell ⟨i, hi⟩ ⟨j, hj⟩ =
          d.dot (A.row ⟨i, hi⟩) (B.column ⟨j, hj⟩) := cell_ofFn _ _
      rw [cell]
      exact .dot _ _

variable (law : d.Exchangeable)

include law

/-- The cell of a multiple is the sum of one product. -/
theorem interchangeable_multipleCell (a : α) {b : α} (hb : b ∈ d) :
    d.Interchangeable (multipleCell d a b) (d.dot [a] [b]) := by
  unfold multipleCell scaleCell
  rw [law.dot_singleton]
  by_cases left : d.isZero a = true
  · simp only [left, Bool.true_or, if_true]
    exact ⟨Iff.rfl, fun _ => law.isZero_zero⟩
  · by_cases right : d.isZero b = true
    · simp only [left, right, Bool.or_true, if_true]
      exact ⟨iff_of_true hb law.zero_mem, fun _ => right⟩
    · rw [law.mul_comm b a, if_neg left, if_neg right, if_neg (by simp [left, right])]
      split
      next empty =>
        exact ⟨iff_of_true (law.mem_of_isZero empty) law.zero_mem, fun _ => empty⟩
      next => exact ⟨Iff.rfl, law.refl⟩

/-- A product of matrices with fitting shapes has the sums of products along their rows and columns
as its cells. -/
theorem mul_alike_products (hA : ∀ a ∈ A.toList, a ∈ d) (hB : ∀ b ∈ B.toList, b ∈ d)
    (fits : A.cols = B.rows) :
    Outcome.Alike (fun _ _ => True) (Matrix.Alike d.EqualElements) (A.mul d B)
      ((products d A B).checked d) := by
  obtain ⟨N, formed, rows, cols, cells⟩ :=
    exists_mul_eq_checked hA hB (fun _ _ => law.zero_mem) fits
  rw [formed]
  refine Alike.checked ⟨rows, cols, ?_⟩
  intro i j hi hj (hi' : i < A.rows) (hj' : j < B.cols)
  have cell : (products d A B).cell ⟨i, hi'⟩ ⟨j, hj'⟩ =
      d.dot (A.row ⟨i, hi'⟩) (B.column ⟨j, hj'⟩) := cell_ofFn _ _
  have left := row_mem_of_members hA ⟨i, hi'⟩
  have right := column_mem_of_members hB ⟨j, hj'⟩
  rw [cell]
  generalize N.cell ⟨i, hi⟩ ⟨j, hj⟩ = c, A.row ⟨i, hi'⟩ = xs, B.column ⟨j, hj'⟩ = ys,
    cells i j hi hj hi' hj' = combined at left right
  cases combined with
  | dot => exact ⟨Iff.rfl, law.refl⟩
  | left a b => exact interchangeable_multipleCell law a (right b List.mem_cons_self)
  | right a b =>
    rw [law.dot_singleton_comm]
    exact interchangeable_multipleCell law b (left a List.mem_cons_self)

/-- The cells of a product that there is. -/
theorem cell_of_mul {V : Matrix α} (hA : ∀ a ∈ A.toList, a ∈ d) (hB : ∀ b ∈ B.toList, b ∈ d)
    (fits : A.cols = B.rows) (product : A.mul d B = .ok V) :
    V.rows = A.rows ∧ V.cols = B.cols ∧
      ∀ i j (hi : i < V.rows) (hj : j < V.cols) (hi' : i < A.rows) (hj' : j < B.cols),
        V.cell ⟨i, hi⟩ ⟨j, hj⟩ == d.dot (A.row ⟨i, hi'⟩) (B.column ⟨j, hj'⟩) := by
  have alike := mul_alike_products law hA hB fits
  rw [product] at alike
  cases computed : (products d A B).checked d with
  | error e =>
    rw [computed] at alike
    nomatch alike
  | ok N =>
    rw [computed] at alike
    obtain ⟨-, rfl⟩ := (checked_eq_ok_iff d).mp computed
    cases alike with
    | ok related =>
      refine ⟨related.rows, related.cols, fun i j hi hj hi' hj' => ?_⟩
      have cell : (products d A B).cell ⟨i, hi'⟩ ⟨j, hj'⟩ =
          d.dot (A.row ⟨i, hi'⟩) (B.column ⟨j, hj'⟩) := cell_ofFn _ _
      exact cell ▸ (related.cell i j hi hj hi' hj').2.2

end Matrix

/-! ### Floating-point numbers -/

namespace Binary64

open Float.Model Float.Model.UnpackedFloat

theorem add_comm (a b : Float) : a + b = b + a := by
  have same (f g : UnpackedFloat) :
      UnpackedFloat.add Format.binary64 f g = UnpackedFloat.add Format.binary64 g f := by
    cases f <;> cases g <;> grind [UnpackedFloat.add]
  exact congrArg (fun f => ({ toModel := .pack f } : Float)) (same (unpacked a) (unpacked b))

theorem mul_comm (a b : Float) : a * b = b * a := by
  have signs (s t : Sign) : s * t = t * s := by cases s <;> cases t <;> rfl
  have same (f g : UnpackedFloat) :
      UnpackedFloat.mul Format.binary64 f g = UnpackedFloat.mul Format.binary64 g f := by
    cases f <;> cases g <;> grind [UnpackedFloat.mul]
  exact congrArg (fun f => ({ toModel := .pack f } : Float)) (same (unpacked a) (unpacked b))

end Binary64

/-- Rounded sums and products do not depend on the order of their operands. -/
theorem AlgebraName.exchangeable (n : AlgebraName) : (n.dioid : Dioid Float).Exchangeable where
  one_mem := n.distributive.one_factor
  refl member := n.distributive.refl (n.distributive.factor_term member)
  isZero_zero := n.distributive.isZero_zero
  mem_of_isZero {a} empty := by
    obtain ⟨number, number', level⟩ := Binary64.beq_iff.mp empty
    have symm : n.dioid.zero == a := Binary64.beq_iff.mpr ⟨number', number, level.symm⟩
    exact n.mem_congr n.distributive.zero_factor symm
  mul_comm a b := by
    cases n with
    | maxPlus => exact Binary64.add_comm a b
    | minPlus => exact Binary64.add_comm a b
    | maxTimes => exact Binary64.mul_comm a b
    | minTimes => exact Binary64.mul_comm a b
  isZero_mul {a b} ha hb empty := by
    have law := n.distributive
    have vanishes : n.dioid.mul a b == n.dioid.mul a n.dioid.zero :=
      law.mul_congr ha ha hb law.zero_factor (law.refl (law.factor_term ha)) empty
    exact law.trans (law.mul_term ha hb) (law.mul_term ha law.zero_factor) law.zero_term vanishes
      (law.mul_zero ha)

end TropicalAlgebra
