import TropicalAlgebra.Fitting.Fit
import TropicalAlgebra.Proofs.Storage.TwoSided

/-!
# Fits on stored cells

The matrix of powers reads points and exponents by position, and the diagonal matrix reads values.
Both hold the matrices that are built from whole rows, provided that a word can count the cells, and
so the fits to samples are the same. A build that stops at overflow stops before it lays out a matrix
with more cells.
-/

namespace TropicalAlgebra

open Access Stored
open TropicalAlgebra.Matrix (wordSize HeldIn HeldAs)

variable {α : Type} [Scalar α] (w : Overflow) (d : Dioid α)

namespace Stored

/-- The powers of every point with every exponent of the range, one row for each point. -/
def ofPowers (points : List α) (range : ExponentRange) : Access α (Stored α) := do
  of range.check
  of (require (points ≠ []) (.configuration .noPoints))
  let exponents := range.exponents
  generate w points.length exponents.length fun i j => do
    let x ← read points i
    let e ← read exponents j
    of (d.pow x e)

/-- The values on the diagonal and zero elsewhere. -/
def ofDiagonal (values : List α) : Access α (Stored α) := do
  of (require (values ≠ []) (.configuration .noValues))
  let values ← values.mapM fun a => of (d.element a)
  generate w values.length values.length fun i j => if i = j then read values i else pure d.zero

/-- The polynomial whose coefficients for the exponents of `range` are the entries of a column. -/
def polynomial (column : Stored α) (range : ExponentRange) : Access α (Polynomial α) := do
  of range.check
  of (require (column.shape = ⟨range.length, 1⟩)
    (.shape (.coefficientVector range.length column.shape)))
  pure ⟨List.zipWith Monomial.mk column.data range.exponents⟩

/-- The polynomial with the exponents of `range` that comes closest to the samples. -/
def fitPolynomial (s : Samples α) (range : ExponentRange) : Access α (PolynomialFit α) := do
  of s.check
  let X ← ofPowers w d s.points range
  let y ← columnVector w s.values
  y.validate d
  let greatest ← X.subsolution w d y
  let reached ← X.mul w d greatest
  let gap ← (← (← reached.pseudoInverse w d).mul w d y).index w 0 0
  let theta ← greatest.centred w d gap
  pure ⟨← theta.polynomial range, gap⟩

/-- A quotient of two polynomials with the exponents of `range` that comes close to the samples. -/
def fitRational (s : Samples α) (range : ExponentRange) : Access α (RationalFit α) := do
  of s.check
  let X ← ofPowers w d s.points range
  let Y ← ofDiagonal w d s.values
  let YX ← Y.mul w d X
  let solution ← solveWithDefaults w d none X YX
  pure {
    numerator := ← solution.theta.polynomial range
    denominator := ← solution.sigma.polynomial range
    gap := solution.gap
    termination := solution.termination }

variable {w} {d}

omit [Scalar α] in
/-- Rows of one length, one after the other. -/
theorem ofRows_uniform {rows : List (List α)} {n : Nat} (nonempty : rows ≠ [])
    (uniform : ∀ r ∈ rows, r.length = n) :
    Matrix.ofRows rows = Matrix.ofList rows.length n rows.flatten := by
  have width : (rows.head?.map List.length).getD 0 = n := by
    obtain ⟨r, rest, rfl⟩ := List.exists_cons_of_ne_nil nonempty
    exact uniform r List.mem_cons_self
  rw [Matrix.ofRows, width, Matrix.raggedRow?_eq_none uniform]

/-- One row of powers for each point, each as long as the range. -/
theorem uniform_powers {points : List α} {range : ExponentRange} {rows : List (List α)}
    (powers : (points.mapM fun x => range.exponents.mapM fun e => d.pow x e) = .ok rows) :
    rows.length = points.length ∧ ∀ r ∈ rows, r.length = range.length := by
  have each := Outcome.mapM_eq_ok_iff.mp powers
  refine ⟨each.length_eq.symm, fun r member => ?_⟩
  obtain ⟨x, -, row⟩ := (Outcome.mem_iff_of_mapM powers).mp member
  rw [← (Outcome.mapM_eq_ok_iff.mp row).length_eq, ExponentRange.length_exponents]

theorem renders_ofPowers (points : List α) (range : ExponentRange)
    (fits : (range.check : Outcome α Unit) = .ok () → points.length * range.length < wordSize) :
    Renders (HeldAs points.length range.length) (ofPowers w d points range)
      (Matrix.ofPowers d points range) := by
  refine ((Renders.of range.check).and_ok fun _ => fits).bind fun {_ _} accepted => ?_
  obtain ⟨-, fits⟩ := accepted
  refine ((Renders.of (require (points ≠ []) _)).and_ok fun _ => require_eq_ok_iff.mp).bind
    fun {_ _} accepted => ?_
  obtain ⟨-, given⟩ := accepted
  have table : rectangle points.length (range.exponents : List α).length (fun i j => do
        of (d.pow (← read points i) (← read (range.exponents : List α) j))) =
      List.flatten <$> of (points.mapM fun x => range.exponents.mapM fun e => d.pow x e) := by
    rw [rectangle_read]
    simp only [of_mapM]
  rw [generate, ExponentRange.length_exponents, word_of_lt fits, ok_bind,
    ← ExponentRange.length_exponents (α := α), table, bind_map_left]
  refine ((Renders.of _).and_ok fun _ => uniform_powers).bind fun {rows _} powers => ?_
  obtain ⟨rfl, height, width⟩ := powers
  have nonempty : rows ≠ [] := by
    rw [← List.length_pos_iff, height]
    exact List.length_pos_iff.mpr given
  rw [ofRows_uniform nonempty width, height, ExponentRange.length_exponents]
  exact renders_ofList rows.flatten fits

theorem ofPowers_stops {points : List α} {range : ExponentRange}
    (accepted : (range.check : Outcome α Unit) = .ok ())
    (large : wordSize ≤ points.length * range.length) :
    ofPowers .stops d points range = .error .overflow := by
  have given : points ≠ [] := by
    rintro rfl
    rw [List.length_nil, Nat.zero_mul] at large
    exact absurd (wordSize_pos.trans_le large) (Nat.lt_irrefl 0)
  have present : (require (points ≠ []) (.configuration .noPoints) : Outcome α Unit) = .ok () :=
    require_eq_ok_iff.mpr given
  simp only [ofPowers, accepted, present, of_ok, ok_bind]
  exact generate_stops _ (by rwa [ExponentRange.length_exponents])

omit [Scalar α] in
theorem renders_ofDiagonal (values : List α) (fits : ∀ elements,
    values.mapM d.element = .ok elements → values.length * values.length < wordSize) :
    Renders (HeldAs values.length values.length) (ofDiagonal w d values)
      (Matrix.ofDiagonal d values) := by
  refine (Renders.of _).bind fun _ => ?_
  rw [← of_mapM]
  refine ((Renders.of (values.mapM d.element)).and_ok fun elements accepted =>
    And.intro (Outcome.mapM_eq_ok_iff.mp accepted).length_eq (fits elements accepted)).bind
    fun {elements _} accepted => ?_
  obtain ⟨rfl, length, fits⟩ := accepted
  rw [length] at fits ⊢
  refine renders_generate fits fun i hi j hj => ?_
  by_cases same : i = j
  · simp [same, hj, read_of_lt]
  · simp [same]

omit [Scalar α] in
theorem ofDiagonal_stops {values elements : List α}
    (accepted : values.mapM d.element = .ok elements)
    (large : wordSize ≤ values.length * values.length) :
    ofDiagonal .stops d values = .error .overflow := by
  have given : values ≠ [] := by
    rintro rfl
    exact absurd (wordSize_pos.trans_le large) (Nat.lt_irrefl 0)
  have present : (require (values ≠ []) (.configuration .noValues) : Outcome α Unit) = .ok () :=
    require_eq_ok_iff.mpr given
  have length : values.length = elements.length := (Outcome.mapM_eq_ok_iff.mp accepted).length_eq
  simp only [ofDiagonal, present, ← of_mapM, accepted, of_ok, ok_bind]
  exact generate_stops _ (length ▸ large)

theorem renders_polynomial {column : Matrix α} {S : Stored α} (held : column.HeldIn S)
    (range : ExponentRange) :
    Renders (· = ·) (S.polynomial range) (Polynomial.ofColumn column range) := by
  obtain rfl := held.stored
  exact (Renders.of _).bind fun _ => (Renders.of _).bind fun _ => .ok rfl

variable {s : Samples α} {range : ExponentRange}

theorem renders_fitPolynomial (fits : s.check = .ok () →
    (range.check : Outcome α Unit) = .ok () → s.points.length * range.length < wordSize) :
    Renders (· = ·) (fitPolynomial w d s range) (s.fitPolynomial d range) := by
  refine ((Renders.of s.check).and_ok fun _ accepted => accepted).bind fun {_ _} accepted => ?_
  have length : s.points.length = s.values.length := require_eq_ok_iff.mp accepted.2
  refine (renders_ofPowers s.points range (fits accepted.2)).bind fun heldX => ?_
  refine (renders_columnVector s.values (length ▸ heldX.rows_lt)).bind fun heldY => ?_
  rw [← length] at heldY
  refine (renders_validate d heldY.toHeldIn).bind fun _ => ?_
  refine (renders_subsolution d heldX heldY).bind fun greatest => ?_
  refine (renders_product d heldX greatest heldY.fits_shape).bind fun reached => ?_
  refine (renders_pseudoInverse d reached).bind_ok fun inverse => ?_
  refine (renders_product d inverse heldY one_lt_wordSize).bind fun single => ?_
  refine (renders_corner single.toHeldIn).bind_ok fun gap => ?_
  subst gap
  refine (renders_centred d greatest _).bind fun theta => ?_
  exact (renders_polynomial theta.toHeldIn range).bind fun same => .ok (same ▸ rfl)

theorem fitPolynomial_stops (checked : s.check = .ok ())
    (accepted : (range.check : Outcome α Unit) = .ok ())
    (large : wordSize ≤ s.points.length * range.length) :
    fitPolynomial .stops d s range = .error .overflow := by
  simp only [fitPolynomial, checked, of_ok, ok_bind, ofPowers_stops accepted large, error_bind]

theorem renders_fitRational (fits : s.check = .ok () →
      (range.check : Outcome α Unit) = .ok () → s.points.length * range.length < wordSize)
    (fitsDiagonal : s.check = .ok () → ∀ X, Matrix.ofPowers d s.points range = .ok X →
      ∀ elements, s.values.mapM d.element = .ok elements →
        s.values.length * s.values.length < wordSize) :
    Renders (· = ·) (fitRational w d s range) (s.fitRational d range) := by
  refine ((Renders.of s.check).and_ok fun _ accepted => accepted).bind fun {_ _} accepted => ?_
  have length : s.points.length = s.values.length := require_eq_ok_iff.mp accepted.2
  refine ((renders_ofPowers s.points range (fits accepted.2)).and_ok fun _ computed =>
    computed).bind fun {X _} powers => ?_
  obtain ⟨heldX, computed⟩ := powers
  refine (renders_ofDiagonal s.values (fitsDiagonal accepted.2 X computed)).bind fun heldY => ?_
  rw [← length] at heldY
  -- a diagonal matrix keeps the shape of the matrix that it scales
  refine (renders_product d heldY heldX heldX.fits_shape).bind fun heldYX => ?_
  refine (renders_solveWithDefaults d heldX.toHeldIn heldYX.toHeldIn).bind fun solution => ?_
  refine (renders_polynomial solution.theta.toHeldIn range).bind fun same => ?_
  refine (renders_polynomial solution.sigma.toHeldIn range).bind fun same' => ?_
  rw [same, same', solution.gap, solution.termination]
  exact .ok rfl

theorem fitRational_stops (checked : s.check = .ok ())
    (accepted : (range.check : Outcome α Unit) = .ok ())
    (large : wordSize ≤ s.points.length * range.length) :
    fitRational .stops d s range = .error .overflow := by
  simp only [fitRational, checked, of_ok, ok_bind, ofPowers_stops accepted large, error_bind]

/-- The diagonal matrix is laid out after the matrix of powers. -/
theorem fitRational_stops_diagonal (checked : s.check = .ok ())
    (fits : s.points.length * range.length < wordSize) {X : Matrix α}
    (powers : Matrix.ofPowers d s.points range = .ok X) {elements : List α}
    (accepted : s.values.mapM d.element = .ok elements)
    (large : wordSize ≤ s.values.length * s.values.length) :
    fitRational .stops d s range = .error .overflow := by
  have rendered := renders_ofPowers (w := .stops) (d := d) s.points range fun _ => fits
  rw [powers] at rendered
  obtain ⟨S, computed, -⟩ := rendered.exists_ok
  simp only [fitRational, checked, of_ok, ok_bind, computed, ofDiagonal_stops accepted large,
    error_bind]

end Stored

end TropicalAlgebra
