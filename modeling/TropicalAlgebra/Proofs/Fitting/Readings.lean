import TropicalAlgebra.Fitting.Fit
import TropicalAlgebra.Proofs.Fitting.Powers
import TropicalAlgebra.Proofs.Matrix.Distance

/-!
# Powers and polynomials as heights

Over an exact dioid the matrix of powers of rational points has no zero, and the value of a
polynomial at a point is an entry of the product of this matrix with the coefficients.
-/

namespace TropicalAlgebra

open ExtendedRational

namespace ExponentRange

/-- The exponents as rational numbers. -/
def exponent (r : ExponentRange) (k : Fin r.length) : Rat := (r.left + k) * (r.d : Rat)⁻¹

theorem exponents_eq (r : ExponentRange) :
    (r.exponents : List ExtendedRational) = List.ofFn fun k => rational (r.exponent k) := by
  apply List.ext_getElem
  · simp
  · intro k hk hk'
    simp [exponents, exponent, ofRatio_eq]

end ExponentRange

variable {d : Dioid ExtendedRational} {χ : d.Chart} {m : Nat} {range : ExponentRange}

/-- The heights of the powers of some points. -/
def powerHeights (χ : d.Chart) (range : ExponentRange) (points : Fin m → Rat) (i : Fin m)
    (j : Fin range.length) : Height :=
  Height.exp (χ.sign * (points i * range.exponent j))

private theorem mapM_ofFn {β γ : Type} {f : β → Outcome ExtendedRational γ} {x : Fin m → β}
    {y : Fin m → γ} (each : ∀ i, f (x i) = .ok (y i)) :
    (List.ofFn x).mapM f = .ok (List.ofFn y) := by
  rw [List.ofFn_eq_map, List.ofFn_eq_map, List.mapM_map]
  exact mapM_eq_ok_map fun i _ => each i

theorem reads_ofPowers (order : range.left ≤ range.right) (denominator : range.d ≠ 0)
    (pos : 0 < m) (points : Fin m → Rat) :
    ∃ X, Matrix.ofPowers d (List.ofFn fun i => rational (points i)) range = .ok X ∧
      X.Reads χ.toValuation (powerHeights χ range points) := by
  have given : (List.ofFn fun i => rational (points i)) ≠ [] := by
    rw [Ne, List.ofFn_eq_nil_iff]
    omega
  -- a power of a rational number is rational, so no step of the traversal fails
  have table : (List.ofFn fun i => rational (points i)).mapM
      (fun x => range.exponents.mapM fun e => d.pow x e) =
      .ok (List.ofFn fun i => List.ofFn fun j => rational (points i * range.exponent j)) := by
    refine mapM_ofFn fun i => ?_
    rw [ExponentRange.exponents_eq]
    exact mapM_ofFn fun j => χ.pow_rational _ _
  refine ⟨Matrix.ofFn m range.length pos (ExponentRange.length_pos order) fun i j =>
    rational (points i * range.exponent j), ?_, ?_⟩
  · refine ExponentRange.check_bind_eq_ok_iff.mpr ⟨⟨order, denominator⟩, ?_⟩
    refine require_bind_eq_ok_iff.mpr ⟨given, bind_eq_ok_iff.mpr ⟨_, table, ?_⟩⟩
    exact Matrix.ofRows_ofFn pos (ExponentRange.length_pos order) _
  · exact Matrix.reads_ofFn (fun _ _ => χ.rational_mem _) fun _ _ => χ.value_rational _

theorem reads_ofDiagonal (pos : 0 < m) (values : Fin m → Rat) :
    ∃ Y, Matrix.ofDiagonal d (List.ofFn fun i => rational (values i)) = .ok Y ∧
      Y.Reads χ.toValuation fun i j => if i = j then χ.heights values i else 0 := by
  have given : (List.ofFn fun i => rational (values i)) ≠ [] := by
    rw [Ne, List.ofFn_eq_nil_iff]
    omega
  have accepted := mapM_ofFn fun i => Dioid.element_of_mem (χ.rational_mem (values i))
  refine ⟨Matrix.ofFn m m pos pos fun i j => if i = j then rational (values i) else d.zero, ?_, ?_⟩
  · refine require_bind_eq_ok_iff.mpr ⟨given, bind_eq_ok_iff.mpr ⟨_, accepted, ?_⟩⟩
    rw [List.length_ofFn, Matrix.generate, dif_pos ⟨pos, pos⟩]
    simp [Fin.ext_iff]
  · apply Matrix.reads_ofFn
    · intro i j
      split
      · exact χ.rational_mem _
      · exact χ.zero_mem
    · intro i j
      split
      · exact χ.value_rational _
      · exact χ.value_zero

/-! ## Polynomials -/

/-- What a term adds to the value at `x`. -/
private def Monomial.product (d : Dioid ExtendedRational) (x : Rat)
    (t : Monomial ExtendedRational) : ExtendedRational :=
  d.mul t.coefficient (d.rawPow (rational x) t.exponent)

private theorem Monomial.value_spec (χ : d.Chart) {c : ExtendedRational} (member : c ∈ d)
    (e x : Rat) :
    (Monomial.mk c (rational e)).value d (rational x) = .ok ((mk c (rational e)).product d x) ∧
      (mk c (rational e)).product d x ∈ d ∧
      χ.value ((mk c (rational e)).product d x) = χ.value c * Height.exp (χ.sign * (x * e)) := by
  have power : d.rawPow (rational x) (rational e) = rational (x * e) := χ.rawPow_rational x e
  refine ⟨bind_eq_ok_iff.mpr ⟨_, χ.pow_rational x e, ?_⟩, ?_, ?_⟩
  · rw [product, power]
    rfl
  · rw [product, power]
    exact χ.mul_mem member (χ.rational_mem _)
  · rw [product, power, χ.value_mul member (χ.rational_mem _), χ.value_rational]

namespace Polynomial

/-- The value of a polynomial sums up all terms, although those with a zero coefficient are left
out. -/
theorem value_ofFn (χ : d.Chart) {c : Fin m → ExtendedRational} (members : ∀ j, c j ∈ d)
    (e : Fin m → Rat) (x : Rat) :
    ∃ v, (Polynomial.mk (List.ofFn fun j => ⟨c j, rational (e j)⟩)).value d (rational x) = .ok v ∧
      v ∈ d ∧ χ.value v = ∑ j, χ.value (c j) * Height.exp (χ.sign * (x * e j)) := by
  let terms : List (Monomial ExtendedRational) := List.ofFn fun j => ⟨c j, rational (e j)⟩
  -- the terms that the program evaluates; the others would add zero
  let present := terms.filter fun t => !d.isZero t.coefficient
  have isTerm (t : Monomial ExtendedRational) (ht : t ∈ terms) : ∃ j, ⟨c j, rational (e j)⟩ = t :=
    (List.mem_ofFn' _ _).mp ht
  have values : present.mapM (fun t => t.value d (rational x)) =
      .ok (present.map fun t => t.product d x) := by
    refine mapM_eq_ok_map fun t ht => ?_
    obtain ⟨j, rfl⟩ := isTerm t (List.mem_of_mem_filter ht)
    exact (Monomial.value_spec χ (members j) (e j) x).1
  have inside : ∀ a ∈ present.map fun t => t.product d x, a ∈ d := by
    intro a ha
    obtain ⟨t, ht, rfl⟩ := List.mem_map.mp ha
    obtain ⟨j, rfl⟩ := isTerm t (List.mem_of_mem_filter ht)
    exact (Monomial.value_spec χ (members j) (e j) x).2.1
  refine ⟨_, bind_eq_ok_iff.mpr ⟨_, values, rfl⟩, χ.sum_mem inside, ?_⟩
  rw [χ.value_sum inside, List.map_map, Dioid.Valuation.sum_map_filter, List.map_ofFn,
    List.sum_ofFn]
  · exact Finset.sum_congr rfl fun j _ => (Monomial.value_spec χ (members j) (e j) x).2.2
  · intro t ht skipped
    obtain ⟨j, rfl⟩ := isTerm t ht
    rw [Bool.not_eq_false'] at skipped
    refine (Monomial.value_spec χ (members j) (e j) x).2.2.trans ?_
    rw [(χ.isZero_iff (members j)).mp skipped, zero_mul]

theorem ofColumn_eq_ok_iff {column : Matrix ExtendedRational} {P : Polynomial ExtendedRational} :
    ofColumn column range = .ok P ↔ (range.left ≤ range.right ∧ range.d ≠ 0) ∧
      column.shape = ⟨range.length, 1⟩ ∧
      ⟨List.zipWith Monomial.mk column.toList range.exponents⟩ = P := by
  rw [ofColumn, ExponentRange.check_bind_eq_ok_iff, require_bind_eq_ok_iff]
  simp only [pure, Except.pure, Except.ok.injEq]

theorem exists_ofColumn_eq_ok (order : range.left ≤ range.right) (denominator : range.d ≠ 0)
    {column : Matrix ExtendedRational} {θ : Fin range.length → Height}
    (read : column.ReadsColumn χ θ) : ∃ P, ofColumn column range = .ok P :=
  ⟨_, ofColumn_eq_ok_iff.mpr
    ⟨⟨order, denominator⟩, congrArg₂ Shape.mk read.rows read.cols, rfl⟩⟩

/-- The value at point `i` is entry `i` of the product of the powers with the coefficients. -/
theorem value_ofColumn {column : Matrix ExtendedRational} {θ : Fin range.length → Height}
    (read : column.ReadsColumn χ θ) {P : Polynomial ExtendedRational}
    (built : ofColumn column range = .ok P) (points : Fin m → Rat) (i : Fin m) :
    ∃ v, P.value d (rational (points i)) = .ok v ∧ v ∈ d ∧
      χ.value v = Height.image (powerHeights χ range points) θ i := by
  -- the list of coefficients is the one column, and the exponents are a list of the same length
  have terms : P.terms = List.ofFn fun j =>
      ⟨column.cell (j.cast read.rows.symm) ⟨0, column.cols_pos⟩, rational (range.exponent j)⟩ := by
    obtain ⟨-, -, rfl⟩ := ofColumn_eq_ok_iff.mp built
    rw [Matrix.toList_eq_column read.cols, Matrix.column_eq_ofFn, ExponentRange.exponents_eq]
    apply List.ext_getElem
    · simp [read.rows]
    · intro j hj hj'
      simp
  obtain ⟨v, returned, member, value⟩ := value_ofFn χ
    (c := fun j : Fin range.length => column.cell (j.cast read.rows.symm) ⟨0, column.cols_pos⟩)
    (fun j => read.mem _ _) range.exponent (points i)
  rw [← terms] at returned
  refine ⟨v, returned, member, value.trans ?_⟩
  refine Finset.sum_congr rfl fun j _ => ?_
  rw [mul_comm, powerHeights]
  congr 1
  exact read.value j 0

end Polynomial

end TropicalAlgebra
