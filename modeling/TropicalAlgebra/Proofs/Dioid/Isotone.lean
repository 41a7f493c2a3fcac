import TropicalAlgebra.Proofs.Dioid.Alike
import TropicalAlgebra.Proofs.Dioid.Annihilating
import TropicalAlgebra.Proofs.Dioid.Joins

/-!
# Monotone operations

If products distribute over sums from both sides, then larger operands give larger results. Products
need be neither associative nor commutative, and one need not be neutral. Zeros may stand in
different places on the two sides, so what one side leaves out may meet a term of the other.
-/

namespace TropicalAlgebra

namespace Dioid

variable {α : Type} [Scalar α]

/-- Sums are joins, zero is neutral and absorbing, and products distribute over sums. The factors
are the scalars that are multiplied, among them the elements; the terms are those that are added. -/
structure Isotone (d : Dioid α) (factors terms : Set α) : Prop
    extends d.Joins terms, d.Annihilating (· == ·) factors terms where
  element_factor : ∀ {a}, a ∈ d → a ∈ factors
  zero_factor : d.zero ∈ factors
  one_factor : d.one ∈ factors
  add_factor : ∀ {a b}, a ∈ factors → b ∈ factors → d.add a b ∈ factors
  mul_congr : ∀ {a a' b b'}, a ∈ factors → a' ∈ factors → b ∈ factors → b' ∈ factors →
    a == a' → b == b' → d.mul a b == d.mul a' b'
  mul_add : ∀ {a b c}, a ∈ factors → b ∈ factors → c ∈ factors →
    d.mul a (d.add b c) == d.add (d.mul a b) (d.mul a c)
  add_mul : ∀ {a b c}, a ∈ factors → b ∈ factors → c ∈ factors →
    d.mul (d.add a b) c == d.add (d.mul a c) (d.mul b c)

/-- Two scalars of `S`, the first below the second. -/
def Below (d : Dioid α) (S : Set α) : α → α → Prop := Among S fun a b => d.le a b

namespace Isotone

variable {d : Dioid α} {factors terms : Set α} (law : d.Isotone factors terms)
  {a a' b b' : α} {xs xs' ys ys' : List α}

include law

theorem below_refl (ha : a ∈ factors) : d.Below factors a a :=
  ⟨ha, ha, law.le_refl (law.factor_term ha)⟩

theorem below_term (h : d.Below factors a a') : d.Below terms a a' :=
  ⟨law.factor_term h.1, law.factor_term h.2.1, h.2.2⟩

/-- What equals the sides of an inequality satisfies it. -/
theorem below_of_same {x x' : α} (left : x ∈ terms ∧ x == a) (right : x' ∈ terms ∧ x' == a')
    (h : d.Below terms a a') : d.Below terms x x' :=
  ⟨left.1, right.1, law.le_congr left.1 h.1 right.1 h.2.1 left.2 right.2 h.2.2⟩

/-! ### Products -/

theorem mul_le_mul_right (ha : a ∈ factors) (hb : b ∈ factors) (hb' : b' ∈ factors)
    (below : d.le b b') : d.le (d.mul a b) (d.mul a b') := by
  have small := law.mul_term ha hb
  have large := law.mul_term ha hb'
  have sum := law.add_factor hb hb'
  have product := law.mul_term ha sum
  -- a ⊗ b ⊕ a ⊗ b' = a ⊗ (b ⊕ b') = a ⊗ b'
  have expanded := law.symm product (law.add_term small large) (law.mul_add ha hb hb')
  have absorbed := law.mul_congr ha ha sum hb' (law.refl (law.factor_term ha)) below
  exact law.trans (law.add_term small large) product large expanded absorbed

theorem mul_le_mul_left (ha : a ∈ factors) (ha' : a' ∈ factors) (hb : b ∈ factors)
    (below : d.le a a') : d.le (d.mul a b) (d.mul a' b) := by
  have small := law.mul_term ha hb
  have large := law.mul_term ha' hb
  have sum := law.add_factor ha ha'
  have product := law.mul_term sum hb
  have expanded := law.symm product (law.add_term small large) (law.add_mul ha ha' hb)
  have absorbed := law.mul_congr sum ha' hb hb below (law.refl (law.factor_term hb))
  exact law.trans (law.add_term small large) product large expanded absorbed

theorem mul_below (h : d.Below factors a a') (k : d.Below factors b b') :
    d.Below terms (d.mul a b) (d.mul a' b') := by
  obtain ⟨ha, ha', first⟩ := h
  obtain ⟨hb, hb', second⟩ := k
  exact ⟨law.mul_term ha hb, law.mul_term ha' hb',
    law.le_trans (law.mul_term ha hb) (law.mul_term ha' hb) (law.mul_term ha' hb')
      (law.mul_le_mul_left ha ha' hb first) (law.mul_le_mul_right ha' hb hb' second)⟩

/-! ### Sums -/

theorem add_below (h : d.Below terms a a') (k : d.Below terms b b') :
    d.Below terms (d.add a b) (d.add a' b') :=
  ⟨law.add_term h.1 k.1, law.add_term h.2.1 k.2.1, law.add_le_add h.1 h.2.1 k.1 k.2.1 h.2.2 k.2.2⟩

theorem total_below (h : List.Forall₂ (d.Below terms) xs xs') :
    d.Below terms (d.total xs) (d.total xs') := by
  have zero := law.below_term (law.below_refl law.zero_factor)
  have step : (Relator.LiftFun (d.Below terms) (Relator.LiftFun (d.Below terms) (d.Below terms)))
      d.add d.add := fun _ _ h _ _ k => law.add_below h k
  exact List.rel_foldl step zero h

theorem sum_below (h : List.Forall₂ (d.Below terms) xs xs') :
    d.Below terms (d.sum xs) (d.sum xs') := by
  obtain ⟨left, right⟩ := mem_of_among h
  exact law.below_of_same (law.same_sum left) (law.same_sum right) (law.total_below h)

theorem products_below (h : List.Forall₂ (d.Below factors) xs xs')
    (k : List.Forall₂ (d.Below factors) ys ys') :
    List.Forall₂ (d.Below terms) ((xs.zip ys).map fun p => d.mul p.1 p.2)
      ((xs'.zip ys').map fun p => d.mul p.1 p.2) := by
  induction h generalizing ys ys' with
  | nil => exact .nil
  | cons first _ ih =>
    cases k with
    | nil => exact .nil
    | cons first' rest' => exact .cons (law.mul_below first first') (ih rest')

theorem dot_below (h : List.Forall₂ (d.Below factors) xs xs')
    (k : List.Forall₂ (d.Below factors) ys ys') :
    d.Below terms (d.dot xs ys) (d.dot xs' ys') := by
  obtain ⟨left, left'⟩ := mem_of_among h
  obtain ⟨right, right'⟩ := mem_of_among k
  exact law.below_of_same (law.same_dot left right) (law.same_dot left' right')
    (law.total_below (law.products_below h k))

theorem addCell_below (h : d.Below terms a a') (k : d.Below terms b b') :
    d.Below terms (Matrix.addCell d a b) (Matrix.addCell d a' b') :=
  law.below_of_same (law.same_addCell h.1 k.1) (law.same_addCell h.2.1 k.2.1) (law.add_below h k)

/-- A scalar above one that wins over `b` wins over `b` itself. -/
theorem dominates_of_below (h : d.Below terms a a') (hb : b ∈ terms)
    (wins : d.dominates a b = true) : d.dominates a' b = true := by
  obtain ⟨ha, ha', below⟩ := h
  rw [dominates, Bool.and_eq_true, bne, Bool.not_eq_true'] at wins ⊢
  obtain ⟨distinct, absorbs⟩ := wins
  have lower : d.le b a :=
    law.trans (law.add_term hb ha) (law.add_term ha hb) ha (law.add_comm hb ha) absorbs
  constructor
  · -- if the two were equal, then `a` would lie between them
    refine Bool.eq_false_iff.mpr fun equal => Bool.eq_false_iff.mp distinct ?_
    have upper := law.le_trans ha ha' hb below (law.le_of_beq ha' hb equal)
    exact law.le_antisymm ha hb upper lower
  · exact law.trans (law.add_term ha' hb) (law.add_term hb ha') ha' (law.add_comm ha' hb)
      (law.le_trans hb ha ha' lower below)

end Isotone

end Dioid

end TropicalAlgebra
