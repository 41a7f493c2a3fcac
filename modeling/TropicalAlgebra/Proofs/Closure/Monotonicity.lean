import TropicalAlgebra.Proofs.Closure.Sequence
import TropicalAlgebra.Proofs.Closure.Truncation
import TropicalAlgebra.Proofs.Dioid.Binary64
import TropicalAlgebra.Proofs.Matrix.Alike
import TropicalAlgebra.Proofs.Matrix.Products

/-!
# Better edges, better walks

If every edge of one graph weighs at most as much as the matching edge of another, then the same is
true of the traces, of the closures and of the partial sums of powers, as far as both can be formed.
A graph has no diverging closure if a larger one has a closure. Missing edges weigh zero, so the two
graphs may well have different edges.
-/

namespace TropicalAlgebra

variable {α : Type} [Scalar α] {d : Dioid α} {factors terms : Set α}

open Outcome

namespace Matrix

variable {A A' B B' C C' M M' : Matrix α}

/-- One shape, and each cell below the matching one. -/
def Below (d : Dioid α) (S : Set α) (A A' : Matrix α) : Prop := A.Alike (d.Below S) A'

theorem below_of_le (law : d.Isotone factors terms) (hM : ∀ a ∈ M.toList, a ∈ d)
    (hM' : ∀ a ∈ M'.toList, a ∈ d) (below : M.le d M') : M.Below d factors M' := by
  obtain ⟨rows, cols, cells⟩ := (all₂_iff d.le).mp below
  exact ⟨rows, cols, fun i j hi hj hi' hj' =>
    ⟨law.element_factor (hM _ (mem_toList.mpr ⟨_, _, rfl⟩)),
      law.element_factor (hM' _ (mem_toList.mpr ⟨_, _, rfl⟩)), cells ⟨i, hi⟩ ⟨j, hj⟩⟩⟩

theorem Below.le {S : Set α} (below : A.Below d S A') : A.le d A' :=
  (all₂_iff d.le).mpr ⟨below.rows, below.cols, fun i j => (below.cell i j i.2 j.2 _ _).2.2⟩

/-- Accepted cells can be multiplied again. -/
theorem Below.restrict {S : Set α} (below : C.Below d terms C') (left : ∀ c ∈ C.toList, c ∈ S)
    (right : ∀ c ∈ C'.toList, c ∈ S) : C.Below d S C' where
  rows := below.rows
  cols := below.cols
  cell i j hi hj hi' hj' := ⟨left _ (mem_toList.mpr ⟨_, _, rfl⟩),
    right _ (mem_toList.mpr ⟨_, _, rfl⟩), (below.cell i j hi hj hi' hj').2.2⟩

/-- The power trace is the sum of the traces of the powers formed one by one. -/
theorem traceSum_eq_ok {t : α} (computed : M.traceSum d = .ok t) :
    ∃ powers, M.positivePowers d M.rows = .ok powers ∧
      d.sum (powers.map (diagonalSum d)) = t := by
  obtain ⟨P, formed, total⟩ := bind_eq_ok_iff.mp computed
  obtain ⟨_, square, -⟩ := bind_eq_ok_iff.mp formed
  have cases :=
    Powers.powers_of_positivePowers (d := d) square (Nat.pos_iff_ne_zero.mp M.rows_pos) false
  cases powers : M.positivePowers d M.rows with
  | error e =>
    rw [powers] at cases
    exact nomatch formed.symm.trans cases
  | ok terms =>
    rw [powers] at cases
    obtain ⟨Q, formedQ, rfl, -⟩ := cases
    obtain rfl : P = Q := Except.ok.inj (formed.symm.trans formedQ)
    exact ⟨_, rfl, Except.ok.inj total⟩

end Matrix

namespace Dioid.Isotone

variable (law : d.Isotone factors terms) {A A' B B' C C' M M' : Matrix α} {a a' : α}

include law

/-! ### Matrix operations -/

theorem checked_below (h : C.Below d terms C') :
    Compatible (Matrix.Below d factors) (C.checked d) (C'.checked d) := by
  intro N N' accepted accepted'
  obtain ⟨left, rfl⟩ := (Matrix.checked_eq_ok_iff d).mp accepted
  obtain ⟨right, rfl⟩ := (Matrix.checked_eq_ok_iff d).mp accepted'
  exact Matrix.Below.restrict h (fun c hc => law.element_factor (left c hc))
    fun c hc => law.element_factor (right c hc)

theorem multipleCell_below {b b' : α} (h : d.Below factors a a') (k : d.Below factors b b') :
    d.Below terms (Matrix.multipleCell d a b) (Matrix.multipleCell d a' b') :=
  law.below_of_same (Matrix.same_multipleCell law.toAnnihilating h.1 k.1)
    (Matrix.same_multipleCell law.toAnnihilating h.2.1 k.2.1) (law.mul_below k h)

theorem scale_below (h : A.Below d factors A') (k : d.Below factors a a') :
    Compatible (Matrix.Below d factors) (A.scale d a) (A'.scale d a') := by
  intro C C' computed computed'
  obtain ⟨-, rfl, left⟩ := Matrix.scale_eq_ok computed
  obtain ⟨-, rfl, right⟩ := Matrix.scale_eq_ok computed'
  -- a multiple by zero consists of zeros that have not been checked
  have factor {c : α} (hc : c = d.zero ∨ c ∈ d) : c ∈ factors :=
    hc.elim (fun same => same ▸ law.zero_factor) law.element_factor
  exact Matrix.Below.restrict (h.map (law.multipleCell_below k)) (fun c hc => factor (left c hc))
    fun c hc => factor (right c hc)

theorem mul_compatible (h : A.Below d factors A') (k : B.Below d factors B') :
    Compatible (Matrix.Below d factors) (A.mul d B) (A'.mul d B') := by
  unfold Matrix.mul
  rw [← h.isScalar, ← k.isScalar, ← h.cols, ← k.rows]
  split
  · exact law.scale_below k h.corner
  · split
    · exact law.scale_below h k.corner
    · split
      · exact law.checked_below (h.products k law.dot_below)
      · exact .of_error_left _

theorem add_compatible (h : A.Below d factors A') (k : B.Below d factors B') :
    Compatible (Matrix.Below d factors) (A.add d B) (A'.add d B') := by
  unfold Matrix.add
  split
  next fits =>
    split
    next fits' =>
      refine law.checked_below (h.zipWith k ?_ fits.1 fits.2 fits'.1 fits'.2)
      exact fun left right => law.addCell_below (law.below_term left) (law.below_term right)
    next => exact .of_error_right _
  next => exact .of_error_left _

theorem identity_below (h : M.Below d factors M') :
    (Matrix.identityOfPos d M.rows M.rows_pos).Below d factors
      (Matrix.identityOfPos d M'.rows M'.rows_pos) := by
  simp only [← h.rows]
  refine .of_cells fun i j => law.below_refl ?_
  unfold Matrix.identityCell
  split
  · exact law.one_factor
  · exact law.zero_factor

/-! ### Powers -/

theorem power_compatible (h : M.Below d factors M') (k : Nat) :
    Compatible (Matrix.Below d factors) (M.power d k) (M'.power d k) := by
  induction k with
  | zero => exact .ok (law.identity_below h)
  | succ k ih =>
    cases k with
    | zero => exact .ok h
    | succ k => exact ih.bind fun last => law.mul_compatible last h

theorem positivePowers_compatible (h : M.Below d factors M') (k : Nat) :
    Compatible (List.Forall₂ (Matrix.Below d factors)) (M.positivePowers d k)
      (M'.positivePowers d k) := by
  have exponents : List.Forall₂ (· = ·) (List.range' 1 k) (List.range' 1 k) :=
    List.forall₂_eq_eq_eq ▸ rfl
  refine .of_mapM exponents fun {i i'} same => ?_
  subst same
  exact law.power_compatible h i

theorem sumOfPowers_compatible (h : M.Below d factors M') (k : Nat) :
    Compatible (Matrix.Below d factors) (M.sumOfPowers d k) (M'.sumOfPowers d k) :=
  (law.positivePowers_compatible h k).bind fun powers =>
    .of_foldlM powers (law.identity_below h) law.add_compatible

theorem powerAndSum_compatible (h : M.Below d factors M') (k : Nat) :
    Compatible (fun p p' => p.1.Below d factors p'.1 ∧ p.2.Below d factors p'.2)
      (M.powerAndSum d k) (M'.powerAndSum d k) := by
  induction k with
  | zero => exact .ok ⟨law.identity_below h, law.identity_below h⟩
  | succ k ih =>
    refine ih.bind fun {p p'} last => ?_
    refine (law.mul_compatible last.1 h).bind fun power => ?_
    exact (law.add_compatible last.2 power).bind fun total => .ok ⟨power, total⟩

/-! ### Traces -/

theorem diagonalSum_below (h : M.Below d factors M') :
    d.Below terms (M.diagonalSum d) (M'.diagonalSum d) :=
  law.sum_below (h.diagonal.imp fun _ _ => law.below_term)

theorem traceSum_compatible (h : M.Below d factors M') :
    Compatible (d.Below terms) (M.traceSum d) (M'.traceSum d) := by
  intro t t' computed computed'
  obtain ⟨powers, formed, rfl⟩ := Matrix.traceSum_eq_ok computed
  obtain ⟨powers', formed', rfl⟩ := Matrix.traceSum_eq_ok computed'
  rw [← h.rows] at formed'
  have related := law.positivePowers_compatible h M.rows powers powers' formed formed'
  exact law.sum_below (List.rel_map (fun _ _ h => law.diagonalSum_below h) related)

end Dioid.Isotone

namespace Matrix

variable {M M' : Matrix α}

/-- If each edge of `M` lies below the matching edge of `M'`, then so do the power traces, the
closures and the partial sums, and `M` does not diverge where `M'` has a closure. -/
theorem closure_mono (law : d.Isotone factors terms) (hM : ∀ a ∈ M.toList, a ∈ d)
    (hM' : ∀ a ∈ M'.toList, a ∈ d) (below : M.le d M') :
    (∀ t t', M.traceSum d = .ok t → M'.traceSum d = .ok t' → d.le t t') ∧
    (∀ S', M'.star d = .ok S' →
      (∀ t o, M.star d ≠ .error (.notWellDefined t o)) ∧
      ∀ S, M.star d = .ok S → S.le d S') ∧
    ∀ start start' s s' items items', M.closureSequence d = .ok start →
      M'.closureSequence d = .ok start' → start.Reaches items s → start'.Reaches items' s' →
      ∀ k (h : k < items.length) (h' : k < items'.length), items[k].le d items'[k] := by
  have related := below_of_le law hM hM' below
  have traces := law.traceSum_compatible related
  refine ⟨fun t t' computed computed' => (traces t t' computed computed').2.2, ?_, ?_⟩
  · intro S' closed'
    obtain ⟨t', trace', small, summed'⟩ := of_star_eq_ok closed'
    constructor
    · intro t o refused
      obtain ⟨trace, exceeds⟩ := of_star_eq_notWellDefined refused
      have one := law.factor_term law.one_factor
      have larger := law.dominates_of_below (traces t t' trace trace') one exceeds
      exact Bool.false_ne_true (small.symm.trans larger)
    · intro S closed
      obtain ⟨t, -, -, summed⟩ := of_star_eq_ok closed
      rw [← related.rows] at summed'
      exact (law.sumOfPowers_compatible related _ S S' summed summed').le
  · intro start start' s s' items items' begun begun' run run' k h h'
    obtain ⟨P, item⟩ := (run.hasYielded begun).item k h
    obtain ⟨P', item'⟩ := (run'.hasYielded begun').item k h'
    exact (law.powerAndSum_compatible related k _ _ item item').2.le

/-- A road of length five. -/
def oneWay : Matrix Float :=
  .ofVectors #v[#v[Scalar.infinity, 5], #v[Scalar.infinity, Scalar.infinity]]

/-- A shorter road, and one that leads back. -/
def bothWays : Matrix Float :=
  .ofVectors #v[#v[Scalar.infinity, 4], #v[1, Scalar.infinity]]

/-- The shortest ways along `oneWay`, where there is none back. -/
def oneWayStar : Matrix Float := .ofVectors #v[#v[0, 5], #v[Scalar.infinity, 0]]

def bothWaysStar : Matrix Float := .ofVectors #v[#v[0, 4], #v[1, 0]]

-- the way back is a term of one trace that the other one leaves out
theorem closure_mono_oneWay_bothWays :
    Dioid.minPlus.le Scalar.infinity (5 : Float) ∧
    oneWay.star .minPlus = .ok oneWayStar ∧ bothWays.star .minPlus = .ok bothWaysStar ∧
    oneWayStar.le .minPlus bothWaysStar := by
  have law : (Dioid.minPlus : Dioid Float).Isotone _ _ := AlgebraName.minPlus.distributive.isotone
  have cells : ∀ a ∈ oneWay.toList, a ∈ (Dioid.minPlus : Dioid Float) := by decide +kernel
  have cells' : ∀ a ∈ bothWays.toList, a ∈ (Dioid.minPlus : Dioid Float) := by decide +kernel
  obtain ⟨traces, stars, -⟩ := closure_mono law cells cells' (by decide +kernel)
  have closed : oneWay.star .minPlus = .ok oneWayStar := by decide +kernel
  have closed' : bothWays.star .minPlus = .ok bothWaysStar := by decide +kernel
  exact ⟨traces _ _ (by decide +kernel) (by decide +kernel), closed, closed',
    (stars _ closed').2 _ closed⟩

end Matrix

end TropicalAlgebra
