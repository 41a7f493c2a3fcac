import TropicalAlgebra.Fitting.Fit
import TropicalAlgebra.Proofs.TwoSided.Alike

/-!
# Fits over dioids that compute alike

Samples at related points with related values have related fits with the same exponents, and the
values of related polynomials at related points are related.
-/

namespace TropicalAlgebra

open Outcome

variable {α : Type} [Scalar α]

/-- Related coefficients of the same exponents. -/
structure Monomial.Alike (R : α → α → Prop) (m m' : Monomial α) : Prop where
  coefficient : R m.coefficient m'.coefficient
  exponent : m.exponent = m'.exponent

def Polynomial.Alike (R : α → α → Prop) (P P' : Polynomial α) : Prop :=
  List.Forall₂ (Monomial.Alike R) P.terms P'.terms

structure PolynomialFit.Alike (R : α → α → Prop) (f f' : PolynomialFit α) : Prop where
  polynomial : f.polynomial.Alike R f'.polynomial
  gap : R f.gap f'.gap

structure RationalFit.Alike (R : α → α → Prop) (f f' : RationalFit α) : Prop where
  numerator : f.numerator.Alike R f'.numerator
  denominator : f.denominator.Alike R f'.denominator
  gap : R f.gap f'.gap
  termination : f.termination = f'.termination

structure Samples.Alike (R : α → α → Prop) (s s' : Samples α) : Prop where
  points : List.Forall₂ R s.points s'.points
  values : List.Forall₂ R s.values s'.values

section Column

variable {R : α → α → Prop} {E : Error α → Error α → Prop}

omit [Scalar α] in
/-- A range of exponents is refused whatever the data. -/
theorem ExponentRange.alike_check
    (configurations : ∀ cause, E (.configuration cause) (.configuration cause))
    (range : ExponentRange) :
    Outcome.Alike E (fun _ _ => True) range.check range.check := by
  refine (Alike.of_require Iff.rfl (configurations _)).bind fun _ => ?_
  exact Alike.of_require Iff.rfl (configurations _)

omit [Scalar α] in
theorem Samples.alike_check (shapes : ∀ cause, E (.shape cause) (.shape cause))
    {s s' : Samples α} (alike : s.Alike R s') :
    Outcome.Alike E (fun _ _ => True) s.check s'.check := by
  unfold Samples.check
  rw [← alike.points.length_eq, ← alike.values.length_eq]
  exact .of_require Iff.rfl (shapes _)

theorem Polynomial.alike_ofColumn (shapes : ∀ cause, E (.shape cause) (.shape cause))
    (configurations : ∀ cause, E (.configuration cause) (.configuration cause))
    {column column' : Matrix α} (alike : column.Alike R column') (range : ExponentRange) :
    Outcome.Alike E (Polynomial.Alike R) (Polynomial.ofColumn column range)
      (Polynomial.ofColumn column' range) := by
  unfold Polynomial.ofColumn
  refine (range.alike_check configurations).bind fun _ => ?_
  rw [← alike.shape]
  refine (Alike.of_require Iff.rfl (shapes _)).bind fun _ => .ok ?_
  have coefficients := alike.toList
  unfold Polynomial.Alike
  generalize column.toList = cs, column'.toList = cs' at coefficients
  generalize (range.exponents : List α) = es
  induction coefficients generalizing es with
  | nil => exact .nil
  | cons first _ ih =>
    cases es with
    | nil => exact .nil
    | cons e es => exact .cons ⟨first, rfl⟩ (ih es)

end Column

namespace Dioid.Alike

variable {R : α → α → Prop} {d e : Dioid α} (alike : Dioid.Alike R d e) {x x' : α}

include alike

/-! ### Values -/

theorem monomialValue {m m' : Monomial α} (h : m.Alike R m') (k : R x x') :
    Outcome.Alike (Error.Alike R d e) R (m.value d x) (m'.value e x') := by
  unfold Monomial.value
  rw [← h.exponent]
  exact (alike.pow k _).bind fun power => .ok (alike.mul h.coefficient power)

theorem polynomialValue {P P' : Polynomial α} (h : P.Alike R P') (k : R x x') :
    Outcome.Alike (Error.Alike R d e) R (P.value d x) (P'.value e x') := by
  have present : List.Forall₂ (Monomial.Alike R)
      (P.terms.filter fun m => !d.isZero m.coefficient)
      (P'.terms.filter fun m => !e.isZero m.coefficient) := by
    refine List.rel_filter (fun m m' related => ?_) h
    show (!d.isZero m.coefficient) = true ↔ (!e.isZero m'.coefficient) = true
    rw [alike.isZero related.coefficient]
  have values := Alike.of_mapM present fun m => alike.monomialValue m k
  exact values.bind fun values => .ok (alike.sum values)

theorem rationalValue {f f' : RationalFit α} (h : f.Alike R f') (k : R x x') :
    Outcome.Alike (Error.Alike R d e) R (f.value d x) (f'.value e x') := by
  refine (alike.polynomialValue h.numerator k).bind fun p => ?_
  exact (alike.polynomialValue h.denominator k).bind fun q => .ok (alike.mul p (alike.inv q))

/-! ### Fits -/

theorem ofPowers {points points' : List α} (h : List.Forall₂ R points points')
    (range : ExponentRange) :
    Outcome.Alike (Error.Alike R d e) (Matrix.Alike R) (Matrix.ofPowers d points range)
      (Matrix.ofPowers e points' range) := by
  have given : points ≠ [] ↔ points' ≠ [] := by
    cases h <;> simp
  have row {x x' : α} (k : R x x') : Outcome.Alike (Error.Alike R d e) (List.Forall₂ R)
      (range.exponents.mapM fun p => d.pow x p) (range.exponents.mapM fun p => e.pow x' p) := by
    refine Alike.of_mapM (List.forall₂_same.mpr fun p _ => rfl) fun {p p'} (same : p = p') => ?_
    exact same ▸ alike.pow k p
  unfold Matrix.ofPowers
  refine (range.alike_check .configuration).bind fun _ => ?_
  refine (Alike.of_require given (.configuration _)).bind fun _ => ?_
  exact (Alike.of_mapM h row).bind fun rows => Matrix.alike_ofRows .shape rows

theorem ofDiagonal {values values' : List α} (h : List.Forall₂ R values values') :
    Outcome.Alike (Error.Alike R d e) (Matrix.Alike R) (Matrix.ofDiagonal d values)
      (Matrix.ofDiagonal e values') := by
  have given : values ≠ [] ↔ values' ≠ [] := by
    cases h <;> simp
  unfold Matrix.ofDiagonal
  refine (Alike.of_require given (.configuration _)).bind fun _ => ?_
  refine (Alike.of_mapM h alike.element).bind fun {values values'} h => ?_
  rw [← h.length_eq]
  refine Matrix.alike_generate .shape _ _ fun i j hi _ => ?_
  split
  · have hi' : i < values'.length := h.length_eq ▸ hi
    rw [List.getElem?_eq_getElem hi, List.getElem?_eq_getElem hi']
    exact h.get hi hi'
  · exact alike.zero

theorem fitPolynomial {s s' : Samples α} (h : s.Alike R s') (range : ExponentRange) :
    Outcome.Alike (Error.Alike R d e) (PolynomialFit.Alike R) (s.fitPolynomial d range)
      (s'.fitPolynomial e range) := by
  refine (Samples.alike_check .shape h).bind fun _ => ?_
  refine (alike.ofPowers h.points range).bind fun X => ?_
  refine (Matrix.alike_columnVector .shape h.values).bind fun y => ?_
  refine (alike.validate y).bind fun _ => ?_
  refine (alike.subsolution X y).bind fun greatest => ?_
  refine (alike.matrixMul X greatest).bind fun reached => ?_
  refine (alike.matrixMul (alike.pseudoInverse reached) y).bind fun product => ?_
  refine (alike.centred greatest product.corner).bind fun theta => ?_
  exact (Polynomial.alike_ofColumn .shape .configuration theta range).bind fun polynomial =>
    .ok ⟨polynomial, product.corner⟩

theorem fitRational {s s' : Samples α} (h : s.Alike R s') (range : ExponentRange) :
    Outcome.Alike (Error.Alike R d e) (RationalFit.Alike R) (s.fitRational d range)
      (s'.fitRational e range) := by
  refine (Samples.alike_check .shape h).bind fun _ => ?_
  refine (alike.ofPowers h.points range).bind fun X => ?_
  refine (alike.ofDiagonal h.values).bind fun Y => ?_
  refine (alike.matrixMul Y X).bind fun YX => ?_
  refine (alike.solve ⟨.none, rfl, rfl⟩ X YX).bind fun solution => ?_
  refine (Polynomial.alike_ofColumn .shape .configuration solution.theta range).bind fun p => ?_
  refine (Polynomial.alike_ofColumn .shape .configuration solution.sigma range).bind fun q => ?_
  exact .ok ⟨p, q, solution.gap, solution.termination⟩

end Dioid.Alike

end TropicalAlgebra
