import TropicalAlgebra.Fitting.Polynomial
import TropicalAlgebra.Proofs.Fitting.Powers
import TropicalAlgebra.Proofs.Matrix.PlainProduct

/-!
# Evaluating a polynomial and multiplying by its coefficients

The values of a polynomial at some points are the entries of the product of their matrix of powers
with the column of the coefficients. The two leave out different terms: a value those with a zero
coefficient, a product those with any zero factor. What a value has in addition is zero.
-/

namespace TropicalAlgebra

open Outcome

variable {α : Type} [Scalar α] {d : Dioid α}

/-! ### Terms that are left out -/

/-- The products of the coefficients other than zero with their powers. -/
def presentTerms (d : Dioid α) (coefficients powers : List α) : List α :=
  ((coefficients.zip powers).filter fun p => !d.isZero p.1).map fun p => d.mul p.1 p.2

theorem Dioid.sum_congr_filter {xs ys : List α}
    (same : (xs.filter fun a => !d.isZero a) = ys.filter fun a => !d.isZero a) :
    d.sum xs = d.sum ys := by
  rw [Dioid.sum, Dioid.sum, same]

/-- The terms of a value add up to the sum of the products. -/
theorem Dioid.Exchangeable.sum_presentTerms (law : d.Exchangeable) {coefficients powers : List α}
    (elements : ∀ c ∈ coefficients, c ∈ d) (elements' : ∀ p ∈ powers, p ∈ d) :
    d.sum (presentTerms d coefficients powers) = d.dot powers coefficients := by
  refine Dioid.sum_congr_filter ?_
  unfold presentTerms
  induction coefficients generalizing powers with
  | nil => simp
  | cons c cs ih =>
    cases powers with
    | nil => rfl
    | cons p ps =>
      rw [List.forall_mem_cons] at elements elements'
      have rest := ih elements.2 elements'.2
      by_cases coefficient : d.isZero c = true
      · simpa [Dioid.term?, coefficient] using rest
      · by_cases power : d.isZero p = true
        · -- the value has this term, but as a zero, which the sum leaves out
          have vanishes := law.isZero_mul elements.1 elements'.1 power
          simpa [Dioid.term?, coefficient, power, vanishes] using rest
        · simp [Dioid.term?, coefficient, power, law.mul_comm p c, List.filter_cons, rest]

namespace Polynomial

/-- The value at a point whose powers are known. -/
theorem value_eq {coefficients exponents powers : List α} {x : α}
    (known : List.Forall₂ (fun e p => d.pow x e = .ok p) exponents powers) :
    (Polynomial.mk (List.zipWith Monomial.mk coefficients exponents)).value d x =
      .ok (d.sum (presentTerms d coefficients powers)) := by
  have values : ((List.zipWith Monomial.mk coefficients exponents).filter
      fun m => !d.isZero m.coefficient).mapM (fun m => m.value d x) =
      .ok (presentTerms d coefficients powers) := by
    rw [mapM_eq_ok_iff, presentTerms]
    induction known generalizing coefficients with
    | nil => cases coefficients <;> exact .nil
    | @cons e p es ps first _ ih =>
      cases coefficients with
      | nil => exact .nil
      | cons c cs =>
        rw [List.zipWith_cons_cons, List.filter_cons, List.zip_cons_cons, List.filter_cons]
        split
        next => exact .cons (bind_eq_ok_iff.mpr ⟨p, first, rfl⟩) ih
        next => exact ih
  exact bind_eq_ok_iff.mpr ⟨_, values, rfl⟩

theorem ofColumn_of_shape {range : ExponentRange} (valid : range.left ≤ range.right ∧ range.d ≠ 0)
    {column : Matrix α} (shape : column.shape = ⟨range.length, 1⟩) :
    ofColumn column range =
      .ok ⟨List.zipWith Monomial.mk (column.column ⟨0, column.cols_pos⟩) range.exponents⟩ := by
  have single : column.cols = 1 := congrArg Shape.cols shape
  refine ExponentRange.check_bind_eq_ok_iff.mpr ⟨valid, ?_⟩
  refine require_bind_eq_ok_iff.mpr ⟨shape, ?_⟩
  rw [Matrix.toList_eq_column single]
  rfl

/-- A polynomial has the entries of the product as its values, whatever terms either leaves out. -/
theorem value_of_mul (law : d.Exchangeable) {points : List α} {range : ExponentRange}
    {theta V : Matrix α} (shape : theta.shape = ⟨range.length, 1⟩)
    (elements : ∀ a ∈ theta.toList, a ∈ d)
    (product : (do (← Matrix.ofPowers d points range).mul d theta) = .ok V) :
    ∃ P, ofColumn theta range = .ok P ∧ V.shape = ⟨points.length, 1⟩ ∧
      ∀ i (h : i < points.length), ∃ v a, P.value d points[i] = .ok v ∧ V.get? i 0 = some a ∧
        a == v := by
  obtain ⟨X, powers, product⟩ := bind_eq_ok_iff.mp product
  obtain ⟨valid, -, height, width, rows⟩ := Matrix.ofPowers_eq_ok powers
  have single : theta.cols = 1 := congrArg Shape.cols shape
  have fits : X.cols = theta.rows := width.trans (congrArg Shape.rows shape).symm
  have column_mem : ∀ c ∈ theta.column ⟨0, theta.cols_pos⟩, c ∈ d :=
    Matrix.toList_eq_column single ▸ elements
  have powers_mem := Matrix.ofPowers_mem law.zero_mem law.one_mem powers
  obtain ⟨vRows, vCols, cells⟩ := Matrix.cell_of_mul law powers_mem elements fits product
  refine ⟨_, ofColumn_of_shape valid shape, ?_, fun i h => ?_⟩
  · rw [Matrix.shape, vRows, vCols, height, single]
  · have hX : i < X.rows := height.symm ▸ h
    have hV : i < V.rows := vRows.symm ▸ hX
    have row_mem := Matrix.row_mem_of_members powers_mem ⟨i, hX⟩
    refine ⟨_, V.cell ⟨i, hV⟩ ⟨0, V.cols_pos⟩, value_eq (mapM_eq_ok_iff.mp (rows i hX h)),
      V.get?_eq_some ⟨i, hV⟩ ⟨0, V.cols_pos⟩, ?_⟩
    rw [law.sum_presentTerms column_mem row_mem]
    exact cells i 0 hV V.cols_pos hX theta.cols_pos

/-- In each of the four algebras over floating-point numbers. -/
theorem value_eq_mul_ofPowers (n : AlgebraName) {points : List Float} {range : ExponentRange}
    {theta V : Matrix Float} (shape : theta.shape = ⟨range.length, 1⟩)
    (elements : ∀ a ∈ theta.toList, a ∈ (n.dioid : Dioid Float))
    (product : (do (← Matrix.ofPowers n.dioid points range).mul n.dioid theta) = .ok V) :
    ∃ P, ofColumn theta range = .ok P ∧ V.shape = ⟨points.length, 1⟩ ∧
      ∀ i (h : i < points.length), ∃ v a, P.value n.dioid points[i] = .ok v ∧
        V.get? i 0 = some a ∧ a == v :=
  value_of_mul n.exchangeable shape elements product

/-- A level term, and a linear one that is missing. -/
def levelTerms : Matrix Float := .ofVectors #v[#v[2], #v[Scalar.negInfinity]]

/-- Zero and a point that is not zero. -/
def zeroAndOther : List Float := [Scalar.negInfinity, 1]

/-- The first power of zero is left out of the product, the missing term out of the value. -/
theorem value_eq_mul_ofPowers_level :
    (do (← Matrix.ofPowers .maxPlus zeroAndOther ⟨0, 1, 1⟩).mul .maxPlus levelTerms) =
        .ok (.ofVectors #v[#v[2], #v[2]]) ∧
      ∃ P, ofColumn levelTerms ⟨0, 1, 1⟩ = .ok P ∧
        ∀ i (h : i < zeroAndOther.length), ∃ v, P.value .maxPlus zeroAndOther[i] = .ok v ∧
          2 == v := by
  have product : (do (← Matrix.ofPowers .maxPlus zeroAndOther ⟨0, 1, 1⟩).mul .maxPlus levelTerms) =
      .ok (.ofVectors #v[#v[2], #v[2]]) := by decide +kernel
  have shape : levelTerms.shape = ⟨ExponentRange.length ⟨0, 1, 1⟩, 1⟩ := rfl
  obtain ⟨P, built, -, values⟩ :=
    value_eq_mul_ofPowers .maxPlus shape (by decide +kernel) product
  refine ⟨product, P, built, fun i h => ?_⟩
  obtain ⟨v, a, computed, entry, same⟩ := values i h
  have two : 2 = a := by
    match i, h with
    | 0, _ => exact Option.some.inj entry
    | 1, _ => exact Option.some.inj entry
  exact ⟨v, computed, two ▸ same⟩

end Polynomial

end TropicalAlgebra
