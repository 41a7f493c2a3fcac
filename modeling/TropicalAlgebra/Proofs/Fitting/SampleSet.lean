import TropicalAlgebra.Proofs.Dioid.Signs
import TropicalAlgebra.Proofs.Fitting.Alike
import TropicalAlgebra.Proofs.Fitting.Diagonal
import TropicalAlgebra.Proofs.Fitting.Powers
import TropicalAlgebra.Proofs.TwoSided.Along

/-!
# Fits of sets of samples

The samples enter a fit as the rows of its matrices, and the fit only sums up over these rows. So
their order does not matter, nor does it matter how often a sample occurs.
-/

namespace TropicalAlgebra

open Outcome

variable {α : Type}

/-- The points, each with its value. -/
def Samples.pairs (s : Samples α) : List (α × α) := s.points.zip s.values

/-- No point or value is missing, and every sample on one side is one on the other. -/
structure Samples.SameSet (s t : Samples α) : Prop where
  complete : s.points.length = s.values.length
  complete' : t.points.length = t.values.length
  mem_iff : ∀ p, p ∈ s.pairs ↔ p ∈ t.pairs

namespace Samples.SameSet

variable {s t : Samples α} (same : s.SameSet t)

include same

/-- Positions of the same sample. -/
def correspondence : Correspondence := .ofEntries s.pairs t.pairs same.mem_iff

theorem left_eq : same.correspondence.left = s.points.length := by
  have length : s.pairs.length = s.points.length := by simp [pairs, same.complete]
  exact length

theorem right_eq : same.correspondence.right = t.points.length := by
  have length : t.pairs.length = t.points.length := by simp [pairs, same.complete']
  exact length

variable {i i' : Nat} (pair : same.correspondence.Pairs i i')

include pair

theorem sample_eq (hi : i < s.points.length) (hv : i < s.values.length) (hi' : i' < t.points.length)
    (hv' : i' < t.values.length) :
    (s.points[i], s.values[i]) = (t.points[i'], t.values[i']) := by
  obtain ⟨p, left, right⟩ := pair
  have read : s.pairs[i]? = some (s.points[i], s.values[i]) :=
    List.getElem?_zip_eq_some.mpr ⟨List.getElem?_eq_getElem hi, List.getElem?_eq_getElem hv⟩
  have read' : t.pairs[i']? = some (t.points[i'], t.values[i']) :=
    List.getElem?_zip_eq_some.mpr ⟨List.getElem?_eq_getElem hi', List.getElem?_eq_getElem hv'⟩
  rw [read] at left
  rw [read'] at right
  exact Option.some.inj (left.trans right.symm)

theorem points_eq (hi : i < s.points.length) (hi' : i' < t.points.length) :
    s.points[i] = t.points[i'] :=
  congrArg Prod.fst (same.sample_eq pair hi (same.complete ▸ hi) hi' (same.complete' ▸ hi'))

theorem values_eq (hv : i < s.values.length) (hv' : i' < t.values.length) :
    s.values[i] = t.values[i'] :=
  congrArg Prod.snd (same.sample_eq pair (same.complete ▸ hv) hv (same.complete' ▸ hv') hv')

omit pair

theorem mem_points_iff {x : α} : x ∈ s.points ↔ x ∈ t.points := by
  have points : s.pairs.map Prod.fst = s.points := List.map_fst_zip same.complete.le
  have points' : t.pairs.map Prod.fst = t.points := List.map_fst_zip same.complete'.le
  simp only [← points, ← points', List.mem_map, same.mem_iff]

theorem mem_values_iff {y : α} : y ∈ s.values ↔ y ∈ t.values := by
  have values : s.pairs.map Prod.snd = s.values := List.map_snd_zip same.complete.ge
  have values' : t.pairs.map Prod.snd = t.values := List.map_snd_zip same.complete'.ge
  simp only [← values, ← values', List.mem_map, same.mem_iff]

theorem points_ne_nil_iff : s.points ≠ [] ↔ t.points ≠ [] := by
  simp only [Ne, List.eq_nil_iff_forall_not_mem, same.mem_points_iff]

theorem values_ne_nil_iff : s.values ≠ [] ↔ t.values ≠ [] := by
  simp only [Ne, List.eq_nil_iff_forall_not_mem, same.mem_values_iff]

end Samples.SameSet

/-! ### Matrices of samples -/

namespace Dioid.Coherent

open TropicalAlgebra.Matrix

variable [Scalar α] {R : α → α → Prop} {terms : Set α} {d : Dioid α} (law : d.Coherent R terms)
  {s t : Samples α} (same : s.SameSet t)

include law same

theorem ofPowers_along (range : ExponentRange) :
    Outcome.Alike (fun _ _ => True)
      (Matrix.Along d.EqualElements same.correspondence (.id range.length))
      (ofPowers d s.points range) (ofPowers d t.points range) := by
  refine .of_ok ?_ fun X X' computed computed' => ?_
  · simp only [exists_ofPowers_iff, same.points_ne_nil_iff, same.mem_points_iff]
  obtain ⟨-, -, rows, cols, powers⟩ := ofPowers_eq_ok computed
  obtain ⟨-, -, rows', cols', powers'⟩ := ofPowers_eq_ok computed'
  refine ⟨rows.trans same.left_eq.symm, rows'.trans same.right_eq.symm, cols, cols', ?_⟩
  rintro i i' j _ hi hj hi' hj' row ⟨rfl, -⟩
  -- the point alone decides about its row of powers
  have point := same.points_eq row (rows ▸ hi) (rows' ▸ hi')
  have powers := powers i hi (rows ▸ hi)
  rw [point, powers' i' hi' (rows' ▸ hi')] at powers
  have member := ofPowers_mem law.exchangeable.zero_mem law.exchangeable.one_mem computed
  have cell : X.cell ⟨i, hi⟩ ⟨j, hj⟩ = X'.cell ⟨i', hi'⟩ ⟨j, hj'⟩ := by
    have entry := List.getElem_of_eq (Except.ok.inj powers) (i := j) (by simpa using hj')
    simpa [Matrix.row, Matrix.cell] using entry.symm
  rw [← cell]
  exact law.equal_refl (member _ (mem_toList.mpr ⟨_, _, rfl⟩))

theorem columnVector_along :
    Outcome.Alike (fun _ _ => True) (Matrix.Along d.Interchangeable same.correspondence (.id 1))
      (columnVector s.values) (columnVector t.values) := by
  refine .of_ok ?_ fun y y' computed computed' => ?_
  · rw [exists_columnVector_iff, exists_columnVector_iff, same.values_ne_nil_iff]
  obtain ⟨rows, cols, cell⟩ := columnVector_eq_ok computed
  obtain ⟨rows', cols', cell'⟩ := columnVector_eq_ok computed'
  refine ⟨?_, ?_, cols, cols', ?_⟩
  · rw [rows, same.left_eq, same.complete]
  · rw [rows', same.right_eq, same.complete']
  intro i i' j j' hi hj hi' hj' row col
  rw [cell i j hi hj (rows ▸ hi), cell' i' j' hi' hj' (rows' ▸ hi'),
    same.values_eq row (rows ▸ hi) (rows' ▸ hi')]
  exact ⟨Iff.rfl, law.exchangeable.refl⟩

omit [Scalar α] law in
theorem ofDiagonal_together :
    Outcome.Alike (fun _ _ => True)
      (fun Y Y' => Y.IsDiagonal d s.values ∧ Y'.IsDiagonal d t.values)
      (ofDiagonal d s.values) (ofDiagonal d t.values) := by
  refine .of_ok ?_ fun Y Y' computed computed' => ?_
  · simp only [exists_ofDiagonal_iff, same.values_ne_nil_iff, same.mem_values_iff]
  · exact ⟨isDiagonal_of_ofDiagonal computed, isDiagonal_of_ofDiagonal computed'⟩

omit same in
/-- A value times a power is the same for equal powers, wherever the value stands. -/
theorem diagonal_dot_beq {X X' Y Y' : Matrix α} {values values' : List α} {i i' j j' : Nat}
    (diagonal : Y.IsDiagonal d values) (diagonal' : Y'.IsDiagonal d values')
    (members : ∀ a ∈ X.toList, a ∈ d) (members' : ∀ a ∈ X'.toList, a ∈ d)
    (hi : i < Y.rows) (hk : i < X.rows) (hj : j < X.cols) (h : i < values.length)
    (hi' : i' < Y'.rows) (hk' : i' < X'.rows) (hj' : j' < X'.cols) (h' : i' < values'.length)
    (value : values[i] = values'[i'])
    (power : d.EqualElements (X.cell ⟨i, hk⟩ ⟨j, hj⟩) (X'.cell ⟨i', hk'⟩ ⟨j', hj'⟩)) :
    d.dot (Y.row ⟨i, hi⟩) (X.column ⟨j, hj⟩) == d.dot (Y'.row ⟨i', hi'⟩) (X'.column ⟨j', hj'⟩) := by
  have base := law.distributive
  have zero := law.exchangeable.zero_mem
  have member := diagonal'.mem _ (List.getElem_mem h')
  have total := base.dot_term (row_mem_of_members (diagonal.members zero) ⟨i, hi⟩)
    (column_mem_of_members members ⟨j, hj⟩)
  have total' := base.dot_term (row_mem_of_members (diagonal'.members zero) ⟨i', hi'⟩)
    (column_mem_of_members members' ⟨j', hj'⟩)
  have term := base.mul_term member power.1
  have term' := base.mul_term member power.2.1
  have left := diagonal.dot_eq_mul base members hi hk hj h
  have right := diagonal'.dot_eq_mul base members' hi' hk' hj' h'
  rw [value] at left
  have products : d.mul values'[i'] (X.cell ⟨i, hk⟩ ⟨j, hj⟩) ==
      d.mul values'[i'] (X'.cell ⟨i', hk'⟩ ⟨j', hj'⟩) :=
    base.mul_congr member member power.1 power.2.1 (law.exchangeable.refl member) power.2.2
  exact base.trans total term total' left
    (base.trans term term' total' products (base.symm total' term' right))

/-- The diagonal matrices themselves do not correspond, since a repeated sample meets zeros beside
the diagonal. Their products with other matrices do. -/
theorem weighted_along {X X' Y Y' : Matrix α} {n : Nat} (diagonal : Y.IsDiagonal d s.values)
    (diagonal' : Y'.IsDiagonal d t.values)
    (along : X.Along d.EqualElements same.correspondence (.id n) X') :
    Outcome.Alike (fun _ _ => True) (Matrix.Along d.EqualElements same.correspondence (.id n))
      (Y.mul d X) (Y'.mul d X') := by
  have rows : X.rows = s.values.length := by rw [along.rows_eq, same.left_eq, same.complete]
  have rows' : X'.rows = t.values.length := by rw [along.rows_eq', same.right_eq, same.complete']
  have elements := diagonal.members law.exchangeable.zero_mem
  have elements' := diagonal'.members law.exchangeable.zero_mem
  refine law.mul_along_of_products elements along.left_mem elements' along.right_mem
    (diagonal.cols.trans rows.symm) (diagonal'.cols.trans rows'.symm)
    ⟨diagonal.rows.trans (rows.symm.trans along.rows_eq),
      diagonal'.rows.trans (rows'.symm.trans along.rows_eq'), along.cols_eq, along.cols_eq', ?_⟩
  intro i i' j j' (hi : i < Y.rows) (hj : j < X.cols) (hi' : i' < Y'.rows) (hj' : j' < X'.cols)
    row col
  have cell : (products d Y X).cell ⟨i, hi⟩ ⟨j, hj⟩ =
      d.dot (Y.row ⟨i, hi⟩) (X.column ⟨j, hj⟩) := cell_ofFn _ _
  have cell' : (products d Y' X').cell ⟨i', hi'⟩ ⟨j', hj'⟩ =
      d.dot (Y'.row ⟨i', hi'⟩) (X'.column ⟨j', hj'⟩) := cell_ofFn _ _
  have h : i < s.values.length := diagonal.rows ▸ hi
  have h' : i' < t.values.length := diagonal'.rows ▸ hi'
  have hk : i < X.rows := rows ▸ h
  have hk' : i' < X'.rows := rows' ▸ h'
  rw [cell, cell']
  refine law.interchangeable ?_ ?_ ?_
  · exact law.distributive.dot_term (row_mem_of_members elements ⟨i, hi⟩)
      (column_mem_of_members along.left_mem ⟨j, hj⟩)
  · exact law.distributive.dot_term (row_mem_of_members elements' ⟨i', hi'⟩)
      (column_mem_of_members along.right_mem ⟨j', hj'⟩)
  · exact law.diagonal_dot_beq diagonal diagonal' along.left_mem along.right_mem hi hk hj h hi' hk'
      hj' h' (same.values_eq row h h') (along.cell i i' j j' hk hj hk' hj' row col)

/-! ### Fits -/

omit law same in
theorem ofColumn_alike {range : ExponentRange} {v v' : Matrix α}
    (along : v.Along d.EqualElements (.id range.length) (.id 1) v') :
    Outcome.Alike (fun _ _ => True) (Polynomial.Alike d.EqualElements)
      (Polynomial.ofColumn v range) (Polynomial.ofColumn v' range) :=
  Polynomial.alike_ofColumn (fun _ => trivial) (fun _ => trivial) along.alike range

theorem fitPolynomial_same (range : ExponentRange) :
    Outcome.Alike (fun _ _ => True) (PolynomialFit.Alike d.EqualElements)
      (s.fitPolynomial d range) (t.fitPolynomial d range) := by
  refine (Alike.of_require (iff_of_true same.complete same.complete') trivial).bind fun _ => ?_
  refine (law.ofPowers_along same range).bind fun X => ?_
  refine (law.columnVector_along same).bind fun y => ?_
  -- that the values are elements is only known from here on
  refine y.validate.bind fun y => ?_
  refine (law.subsolution_along X y).bind fun greatest => ?_
  refine (law.mul_along X greatest).bind fun reached => ?_
  refine (law.mul_along (law.pseudoInverse_along reached) y).bind fun product => ?_
  have gaps := product.alike.corner
  refine (law.centred_along greatest gaps).bind fun theta => ?_
  exact (ofColumn_alike theta).bind fun polynomial => .ok ⟨polynomial, gaps⟩

theorem fitRational_same (range : ExponentRange) :
    Outcome.Alike (fun _ _ => True) (RationalFit.Alike d.EqualElements)
      (s.fitRational d range) (t.fitRational d range) := by
  refine (Alike.of_require (iff_of_true same.complete same.complete') trivial).bind fun _ => ?_
  refine (law.ofPowers_along same range).bind fun X => ?_
  refine (ofDiagonal_together same).bind fun Y => ?_
  refine (law.weighted_along same Y.1 Y.2 X).bind fun YX => ?_
  refine (law.solve_along _ X YX).bind fun solution => ?_
  refine (ofColumn_alike solution.theta).bind fun numerator => ?_
  refine (ofColumn_alike solution.sigma).bind fun denominator => ?_
  exact .ok ⟨numerator, denominator, solution.gap, solution.termination⟩

end Dioid.Coherent

/-! ### Floating-point numbers -/

namespace AlgebraName

open Binary64

private theorem inv_mem {n : AlgebraName} (additive : n = .maxPlus ∨ n = .minPlus) {a : Float}
    (member : a ∈ (n.dioid : Dioid Float)) : (n.dioid : Dioid Float).inv a ∈ n.dioid := by
  rcases additive with rfl | rfl
  · obtain ⟨number, inside⟩ := Dioid.mem_maxPlus_float.mp member
    exact Dioid.mem_maxPlus_float.mpr
      (levelOf_opposite_ne isNumber_negInfinity levelOf_negInfinity number inside)
  · obtain ⟨number, inside⟩ := Dioid.mem_minPlus_float.mp member
    have level : levelOf Scalar.infinity = - -limit := levelOf_infinity.trans (Int.neg_neg _).symm
    exact Dioid.mem_minPlus_float.mpr (levelOf_opposite_ne isNumber_infinity level number inside)

/-- Where the product is a sum, only the sign of a zero tells equal numbers apart, and it has no
effect. -/
theorem coherent {n : AlgebraName} (additive : n = .maxPlus ∨ n = .minPlus) :
    (n.dioid : Dioid Float).Coherent (Turned .positive) n.terms where
  distributive := n.distributive
  exchangeable := n.exchangeable
  alike := by
    rcases additive with rfl | rfl
    · exact Dioid.alike_maxPlus
    · exact Dioid.alike_minPlus
  related_iff {a b} ha hb := by
    obtain ⟨number, -⟩ := beq_iff.mp (n.exchangeable.refl ha)
    obtain ⟨number', -⟩ := beq_iff.mp (n.exchangeable.refl hb)
    constructor
    · intro turned
      exact beq_iff.mpr ⟨number, number', turned.level.symm⟩
    · intro equal
      exact ⟨iff_of_true number number', (beq_iff.mp equal).2.2.symm⟩
  mem_congr := n.mem_congr
  inv_mem := inv_mem additive

end AlgebraName

namespace Samples

/-- Over max-plus and min-plus, both fits depend on the set of samples only: neither the order nor
the repetition of samples shows in the outcome. -/
theorem fits_of_sameSet {n : AlgebraName} (additive : n = .maxPlus ∨ n = .minPlus)
    {s t : Samples Float} (same : s.SameSet t) (range : ExponentRange) :
    Outcome.Alike (fun _ _ => True) (PolynomialFit.Alike n.dioid.EqualElements)
        (s.fitPolynomial n.dioid range) (t.fitPolynomial n.dioid range) ∧
      Outcome.Alike (fun _ _ => True) (RationalFit.Alike n.dioid.EqualElements)
        (s.fitRational n.dioid range) (t.fitRational n.dioid range) :=
  ⟨(n.coherent additive).fitPolynomial_same same range,
    (n.coherent additive).fitRational_same same range⟩

/-- One sample. -/
def once : Samples Float := ⟨[1], [2]⟩

/-- The same sample twice, which makes its matrices larger than a single cell. -/
def twice : Samples Float := ⟨[1, 1], [2, 2]⟩

theorem fits_of_sameSet_twice :
    once.SameSet twice ∧
      (once.fitPolynomial AlgebraName.maxPlus.dioid ⟨0, 0, 1⟩).isOk = true ∧
      (once.fitRational AlgebraName.maxPlus.dioid ⟨0, 0, 1⟩).isOk = true ∧
      Outcome.Alike (fun _ _ => True) (PolynomialFit.Alike AlgebraName.maxPlus.dioid.EqualElements)
        (once.fitPolynomial AlgebraName.maxPlus.dioid ⟨0, 0, 1⟩)
        (twice.fitPolynomial AlgebraName.maxPlus.dioid ⟨0, 0, 1⟩) ∧
      Outcome.Alike (fun _ _ => True) (RationalFit.Alike AlgebraName.maxPlus.dioid.EqualElements)
        (once.fitRational AlgebraName.maxPlus.dioid ⟨0, 0, 1⟩)
        (twice.fitRational AlgebraName.maxPlus.dioid ⟨0, 0, 1⟩) := by
  have same : once.SameSet twice := ⟨by decide, by decide, fun p => by simp [pairs, once, twice]⟩
  have both := fits_of_sameSet (.inl rfl) same ⟨0, 0, 1⟩
  exact ⟨same, by decide +kernel, by decide +kernel, both.1, both.2⟩

end Samples

end TropicalAlgebra
