import TropicalAlgebra.Proofs.Matrix.AlongProducts
import TropicalAlgebra.Proofs.TwoSided.Alike

/-!
# Two-sided equations with corresponding rows

The rows of `A ⊗ θ = B ⊗ σ` are conditions, and the iteration only sums up over them. It therefore
takes the same course if they are put into another order or repeated.
-/

namespace TropicalAlgebra

open Outcome

variable {α : Type} [Scalar α]

namespace Dioid.Coherent

open TropicalAlgebra.Matrix TwoSided

variable {R : α → α → Prop} {terms : Set α} {d : Dioid α} (law : d.Coherent R terms)
  {ρ κ κ' : Correspondence} {A A' B B' b b' x x' : Matrix α} {a a' : α}

include law

theorem pow_equal (equal : d.EqualElements a a') (p : α) :
    Outcome.Alike (fun _ _ => True) d.EqualElements (d.pow a p) (d.pow a' p) := by
  have zero := law.exchangeable.zero_mem
  have one := law.exchangeable.one_mem
  have related := (law.alike.pow (law.related_of_equal equal) p).and_ok
    (fun _ => Dioid.pow_mem zero one) fun _ => Dioid.pow_mem zero one
  refine related.mono (fun _ => trivial) ?_
  rintro b b' ⟨related, left, right⟩
  exact ⟨left, right, (law.related_iff left right).mp related⟩

theorem multipleCell_interchangeable (scalars : d.EqualElements a a') {c c' : α}
    (cells : d.EqualElements c c') :
    d.Interchangeable (multipleCell d a c) (multipleCell d a' c') := by
  have scalars := law.related_of_equal scalars
  have cells := law.related_of_equal cells
  have related : R (multipleCell d a c) (multipleCell d a' c') := by
    unfold multipleCell scaleCell
    rw [← law.alike.isZero scalars, ← law.alike.isZero cells]
    split
    · exact law.alike.zero
    · split
      · exact cells
      · exact law.alike.mul cells scalars
  have both := law.alike.mem_iff related
  exact ⟨both, fun member => (law.related_iff member (both.mp member)).mp related⟩

theorem scale_along (along : A.Along d.EqualElements ρ κ A') (scalars : d.EqualElements a a') :
    Outcome.Alike (fun _ _ => True) (Matrix.Along d.EqualElements ρ κ) (A.scale d a)
      (A'.scale d a') := by
  have zero : d.zero ∈ d := law.exchangeable.zero_mem
  rw [scale_eq_checked (fun _ => zero) scalars.1, scale_eq_checked (fun _ => zero) scalars.2.1]
  apply Along.checked
  refine { along with cell := fun i i' j j' hi hj hi' hj' row col => ?_ }
  have cell : (A.map (multipleCell d a)).cell ⟨i, hi⟩ ⟨j, hj⟩ =
      multipleCell d a (A.cell ⟨i, hi⟩ ⟨j, hj⟩) := cell_map _ A _ _
  have cell' : (A'.map (multipleCell d a')).cell ⟨i', hi'⟩ ⟨j', hj'⟩ =
      multipleCell d a' (A'.cell ⟨i', hi'⟩ ⟨j', hj'⟩) := cell_map _ A' _ _
  rw [cell, cell']
  exact law.multipleCell_interchangeable scalars (along.cell i i' j j' hi hj hi' hj' row col)

theorem subsolution_along (along : A.Along d.EqualElements ρ κ A')
    (target : b.Along d.EqualElements ρ (.id 1) b') :
    Outcome.Alike (fun _ _ => True) (Matrix.Along d.EqualElements κ (.id 1)) (A.subsolution d b)
      (A'.subsolution d b') := by
  refine (law.mul_along (law.pseudoInverse_along target) along).bind fun product => ?_
  exact .ok (law.pseudoInverse_along product)

theorem centred_along (along : x.Along d.EqualElements κ (.id 1) x')
    (gaps : d.EqualElements a a') :
    Outcome.Alike (fun _ _ => True) (Matrix.Along d.EqualElements κ (.id 1)) (x.centred d a)
      (x'.centred d a') :=
  (law.pow_equal gaps _).bind fun half => law.scale_along along half

/-- A half-step fits one vector to all copies of a row. -/
theorem halfStep_along (left : A.Along d.EqualElements ρ κ A')
    (right : B.Along d.EqualElements ρ κ' B') (start : x.Along d.EqualElements κ (.id 1) x') :
    Outcome.Alike (fun _ _ => True)
      (HalfStep.Alike (Matrix.Along d.EqualElements κ' (.id 1)) d.EqualElements)
      (halfStep d A B x) (halfStep d A' B' x') := by
  -- the rows are summed up in the products with a pseudo-inverse, and the gap has none left
  refine (law.mul_along left start).bind fun target => ?_
  refine (law.subsolution_along right target).bind fun greatest => ?_
  refine (law.mul_along right greatest).bind fun reached => ?_
  refine (law.mul_along (law.pseudoInverse_along reached) left).bind fun comparison => ?_
  refine (law.mul_along comparison start).bind fun product => ?_
  have gaps := product.alike.corner
  exact (law.centred_along greatest gaps).bind fun vector => .ok ⟨vector, gaps⟩

variable {n : Nat}

theorem parallel_along (left : A.Along d.EqualElements ρ (.id n) A')
    (right : B.Along d.EqualElements ρ (.id n) B') (tolerance : α) :
    Parallel (Matrix.Along d.EqualElements (.id n) (.id 1)) d.EqualElements (fun _ _ => True) d d
      tolerance A B A' B' where
  right start := law.halfStep_along left right start
  left start := law.halfStep_along right left start
  closed gaps := law.alike.approxEq tolerance (law.related_of_equal gaps) law.alike.one
  seen v w := law.alike.matrixApproxEq tolerance (v.mono law.related_of_equal).alike
    (w.mono law.related_of_equal).alike

theorem startingVector_along (s : Settings α) (cols : A.cols = n) (cols' : A'.cols = n) :
    Outcome.Alike (fun _ _ => True) (Matrix.Along d.EqualElements (.id n) (.id 1))
      (s.startingVector d A) (s.startingVector d A') := by
  obtain rfl := cols
  unfold Settings.startingVector
  rw [cols']
  split
  next x _ =>
    by_cases fits : x.shape = ⟨A.cols, 1⟩
    · obtain ⟨rows, single⟩ := Shape.mk.inj fits
      have same : x.Alike d.Interchangeable x :=
        ⟨rfl, rfl, fun _ _ _ _ _ _ => ⟨Iff.rfl, law.exchangeable.refl⟩⟩
      have accepted := same.along.checked
      rw [rows, single] at accepted
      rw [require_eq_ok_iff.mpr fits]
      exact accepted
    · rw [require, if_neg fits]
      exact .error trivial
  next =>
    rw [require_eq_ok_iff.mpr law.exchangeable.one_mem, ones_of_pos d A.cols_pos]
    refine .ok (Matrix.Alike.along (.of_cells fun _ _ => ?_))
    exact law.equal_refl law.exchangeable.one_mem

theorem check_along (s : Settings α) (left : A.Along d.EqualElements ρ (.id n) A')
    (right : B.Along d.EqualElements ρ (.id n) B') :
    Outcome.Alike (fun _ _ => True) (Matrix.Along d.EqualElements (.id n) (.id 1)) (s.check d A B)
      (s.check d A' B') := by
  have rows : A.rows = B.rows := left.rows_eq.trans right.rows_eq.symm
  have rows' : A'.rows = B'.rows := left.rows_eq'.trans right.rows_eq'.symm
  unfold Settings.check
  refine (Alike.of_require (iff_of_true rows rows') trivial).bind fun _ => ?_
  refine (Alike.of_require Iff.rfl trivial).bind fun _ => ?_
  refine (Alike.of_require Iff.rfl trivial).bind fun _ => ?_
  refine (left.mono Dioid.EqualElements.interchangeable).validate.bind fun _ => ?_
  refine (right.mono Dioid.EqualElements.interchangeable).validate.bind fun _ => ?_
  exact law.startingVector_along s left.cols_eq left.cols_eq'

/-- The solution does not depend on the order or the repetition of the rows. -/
theorem solve_along (s : Settings α) (left : A.Along d.EqualElements ρ (.id n) A')
    (right : B.Along d.EqualElements ρ (.id n) B') :
    Outcome.Alike (fun _ _ => True)
      (Solution.Alike (Matrix.Along d.EqualElements (.id n) (.id 1)) d.EqualElements)
      (s.solve d A B) (s.solve d A' B') := by
  refine (law.check_along s left right).bind fun start => ?_
  exact (law.parallel_along left right s.tolerance).iterate _ ⟨start, .nil, .nil, rfl⟩

end Dioid.Coherent

end TropicalAlgebra
