import Mathlib.Order.Lattice
import TropicalAlgebra.Proofs.Dioid.Distributive

/-!
# Dioids in which scalars are ranked

A sum that picks the operand of the higher rank, together with a product that is monotone in the
ranks, obeys the laws that survive rounding. How the product computes is irrelevant.
-/

namespace TropicalAlgebra

namespace Dioid

variable {α : Type} [Scalar α]

/-- Terms are ranked: comparisons see the rank only, and a sum is an operand of the highest rank. -/
structure Ranked (d : Dioid α) (terms : Set α) (L : Type) [LinearOrder L] where
  rank : α → L
  beq_iff : ∀ {a b}, a ∈ terms → b ∈ terms → (a == b ↔ rank a = rank b)
  orderEq_iff : ∀ {a b}, a ∈ terms → b ∈ terms → (Scalar.orderEq a b ↔ rank a = rank b)
  add_cases : ∀ a b, d.add a b = a ∨ d.add a b = b
  rank_add : ∀ {a b}, a ∈ terms → b ∈ terms → rank (d.add a b) = max (rank a) (rank b)

/-- Products of factors are ranked as well, and in the order of the factors. -/
structure Monotone (d : Dioid α) (factors terms : Set α) (L : Type) [LinearOrder L]
    extends d.Ranked terms L where
  element_factor : ∀ {a}, a ∈ d → a ∈ factors
  factor_term : ∀ {a}, a ∈ factors → a ∈ terms
  zero_factor : d.zero ∈ factors
  one_factor : d.one ∈ factors
  mul_term : ∀ {a b}, a ∈ factors → b ∈ factors → d.mul a b ∈ terms
  zero_least : ∀ {a}, a ∈ terms → rank d.zero ≤ rank a
  rank_mul_le : ∀ {a a' b b'}, a ∈ factors → a' ∈ factors → b ∈ factors → b' ∈ factors →
    rank a ≤ rank a' → rank b ≤ rank b' → rank (d.mul a b) ≤ rank (d.mul a' b')
  rank_mul_comm : ∀ {a b}, a ∈ factors → b ∈ factors → rank (d.mul a b) = rank (d.mul b a)
  rank_zero_mul : ∀ {a}, a ∈ factors → rank (d.mul d.zero a) = rank d.zero
  rank_one_mul : ∀ {a}, a ∈ factors → rank (d.mul d.one a) = rank a

namespace Ranked

variable {d : Dioid α} {terms : Set α} {L : Type} [LinearOrder L] (R : d.Ranked terms L)
variable {a b c : α}

include R

theorem add_mem {P : α → Prop} (ha : P a) (hb : P b) : P (d.add a b) := by
  rcases R.add_cases a b with same | same <;> rw [same] <;> assumption

theorem beq_add_assoc (ha : a ∈ terms) (hb : b ∈ terms) (hc : c ∈ terms) :
    d.add (d.add a b) c == d.add a (d.add b c) := by
  have hab : d.add a b ∈ terms := R.add_mem ha hb
  have hbc : d.add b c ∈ terms := R.add_mem hb hc
  rw [R.beq_iff (R.add_mem hab hc) (R.add_mem ha hbc), R.rank_add hab hc, R.rank_add ha hbc,
    R.rank_add ha hb, R.rank_add hb hc, max_assoc]

theorem beq_add_comm (ha : a ∈ terms) (hb : b ∈ terms) : d.add a b == d.add b a := by
  rw [R.beq_iff (R.add_mem ha hb) (R.add_mem hb ha), R.rank_add ha hb, R.rank_add hb ha, max_comm]

/-- One scalar wins over another exactly if it has the higher rank. -/
theorem dominates_iff (ha : a ∈ terms) (hb : b ∈ terms) :
    d.dominates a b = true ↔ R.rank b < R.rank a := by
  have total : d.add a b ∈ terms := R.add_mem ha hb
  rw [dominates, bne, Bool.and_eq_true, Bool.not_eq_true', ← Bool.not_eq_true, R.beq_iff ha hb,
    R.beq_iff total ha, R.rank_add ha hb, max_eq_left_iff]
  exact ⟨fun h => lt_of_le_of_ne h.2 (Ne.symm h.1), fun h => ⟨h.ne', h.le⟩⟩

/-- A sum is zero or one of its terms, whatever is true of all of these. -/
theorem sum_induction {P : α → Prop} (zero : P d.zero) {xs : List α} (each : ∀ a ∈ xs, P a) :
    P (d.sum xs) := by
  unfold sum
  refine List.foldlRecOn _ _ zero fun total holds a ha => ?_
  have next := each a (List.mem_of_mem_filter ha)
  unfold accumulate
  split
  · exact next
  · exact R.add_mem holds next

end Ranked

namespace Monotone

variable {d : Dioid α} {factors terms : Set α} {L : Type} [LinearOrder L]
variable (R : d.Monotone factors terms L) {a b c : α}

include R

theorem rank_mul_eq {a' b' : α} (ha : a ∈ factors) (ha' : a' ∈ factors) (hb : b ∈ factors)
    (hb' : b' ∈ factors) (left : R.rank a = R.rank a') (right : R.rank b = R.rank b') :
    R.rank (d.mul a b) = R.rank (d.mul a' b') :=
  le_antisymm (R.rank_mul_le ha ha' hb hb' left.le right.le)
    (R.rank_mul_le ha' ha hb' hb left.ge right.ge)

theorem rank_mul_add (ha : a ∈ factors) (hb : b ∈ factors) (hc : c ∈ factors) :
    R.rank (d.mul a (d.add b c)) = max (R.rank (d.mul a b)) (R.rank (d.mul a c)) := by
  have hsum : d.add b c ∈ factors := R.add_mem hb hc
  have rank_sum := R.rank_add (R.factor_term hb) (R.factor_term hc)
  -- a sum stands in for its higher operand, whose product is the higher one
  rcases le_total (R.rank b) (R.rank c) with order | order
  · rw [max_eq_right order] at rank_sum
    rw [max_eq_right (R.rank_mul_le ha ha hb hc le_rfl order)]
    exact R.rank_mul_eq ha ha hsum hc rfl rank_sum
  · rw [max_eq_left order] at rank_sum
    rw [max_eq_left (R.rank_mul_le ha ha hc hb le_rfl order)]
    exact R.rank_mul_eq ha ha hsum hb rfl rank_sum

theorem beq_mul_add (ha : a ∈ factors) (hb : b ∈ factors) (hc : c ∈ factors) :
    d.mul a (d.add b c) == d.add (d.mul a b) (d.mul a c) := by
  have hab := R.mul_term ha hb
  have hac := R.mul_term ha hc
  rw [R.beq_iff (R.mul_term ha (R.add_mem hb hc)) (R.add_mem hab hac), R.rank_add hab hac]
  exact R.rank_mul_add ha hb hc

/-- Monotone products of ranked scalars obey the laws that survive rounding. -/
theorem distributive : d.Distributive factors terms where
  element_factor := R.element_factor
  factor_term := R.factor_term
  zero_factor := R.zero_factor
  one_factor := R.one_factor
  add_factor ha hb := R.add_mem ha hb
  add_term ha hb := R.add_mem ha hb
  mul_term := R.mul_term
  refl ha := (R.beq_iff ha ha).mpr rfl
  symm ha hb same := (R.beq_iff hb ha).mpr ((R.beq_iff ha hb).mp same).symm
  trans ha hb hc first second :=
    (R.beq_iff ha hc).mpr (((R.beq_iff ha hb).mp first).trans ((R.beq_iff hb hc).mp second))
  orderEq_iff ha hb := (R.orderEq_iff ha hb).trans (R.beq_iff ha hb).symm
  add_congr ha ha' hb hb' left right := by
    rw [R.beq_iff (R.add_mem ha hb) (R.add_mem ha' hb'), R.rank_add ha hb, R.rank_add ha' hb',
      (R.beq_iff ha ha').mp left, (R.beq_iff hb hb').mp right]
  mul_congr ha ha' hb hb' left right := by
    rw [R.beq_iff (R.factor_term ha) (R.factor_term ha')] at left
    rw [R.beq_iff (R.factor_term hb) (R.factor_term hb')] at right
    rw [R.beq_iff (R.mul_term ha hb) (R.mul_term ha' hb')]
    exact R.rank_mul_eq ha ha' hb hb' left right
  add_assoc ha hb hc := R.beq_add_assoc ha hb hc
  add_comm ha hb := R.beq_add_comm ha hb
  add_idem ha := by
    rw [R.beq_iff (R.add_mem ha ha) ha, R.rank_add ha ha, max_self]
  zero_add ha := by
    have zero := R.factor_term R.zero_factor
    rw [R.beq_iff (R.add_mem zero ha) ha, R.rank_add zero ha, max_eq_right (R.zero_least ha)]
  zero_mul ha := (R.beq_iff (R.mul_term R.zero_factor ha) (R.factor_term R.zero_factor)).mpr
    (R.rank_zero_mul ha)
  mul_zero ha := (R.beq_iff (R.mul_term ha R.zero_factor) (R.factor_term R.zero_factor)).mpr
    ((R.rank_mul_comm ha R.zero_factor).trans (R.rank_zero_mul ha))
  one_mul ha := (R.beq_iff (R.mul_term R.one_factor ha) (R.factor_term ha)).mpr
    (R.rank_one_mul ha)
  mul_one ha := (R.beq_iff (R.mul_term ha R.one_factor) (R.factor_term ha)).mpr
    ((R.rank_mul_comm ha R.one_factor).trans (R.rank_one_mul ha))
  mul_add ha hb hc := R.beq_mul_add ha hb hc
  add_mul {a b c} ha hb hc := by
    have hac := R.mul_term ha hc
    have hbc := R.mul_term hb hc
    have hsum : d.add a b ∈ factors := R.add_mem ha hb
    rw [R.beq_iff (R.mul_term hsum hc) (R.add_mem hac hbc), R.rank_mul_comm hsum hc,
      R.rank_mul_add hc ha hb, R.rank_add hac hbc, R.rank_mul_comm hc ha, R.rank_mul_comm hc hb]

end Monotone

end Dioid

end TropicalAlgebra
