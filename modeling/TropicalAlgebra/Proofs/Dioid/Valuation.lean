import Mathlib.Algebra.BigOperators.Group.List.Basic
import Mathlib.Algebra.Ring.Defs
import TropicalAlgebra.Dioid

/-!
# Valuations

A valuation reads the elements of a dioid in a commutative semiring. Sums and products are taken
over, and two elements have one value exactly if they are equal as scalars. The operations of the
program become those of the semiring, so that the theory of semirings applies to them.
-/

namespace TropicalAlgebra

namespace Dioid

variable {α : Type} [Scalar α]

/-- The elements of a dioid, closed under its operations, with values in a semiring. -/
structure Valuation (d : Dioid α) (β : Type) [CommSemiring β] where
  value : α → β
  zero_mem : d.zero ∈ d
  one_mem : d.one ∈ d
  add_mem : ∀ {a b}, a ∈ d → b ∈ d → d.add a b ∈ d
  mul_mem : ∀ {a b}, a ∈ d → b ∈ d → d.mul a b ∈ d
  value_zero : value d.zero = 0
  value_one : value d.one = 1
  value_add : ∀ {a b}, a ∈ d → b ∈ d → value (d.add a b) = value a + value b
  value_mul : ∀ {a b}, a ∈ d → b ∈ d → value (d.mul a b) = value a * value b
  beq_iff : ∀ {a b}, a ∈ d → b ∈ d → ((a == b) = true ↔ value a = value b)

namespace Valuation

variable {d : Dioid α} {β : Type} [CommSemiring β] (ν : d.Valuation β)

theorem isZero_iff {a : α} (ha : a ∈ d) : d.isZero a = true ↔ ν.value a = 0 := by
  rw [isZero, ν.beq_iff ha ν.zero_mem, ν.value_zero]

theorem dominates_iff {a b : α} (ha : a ∈ d) (hb : b ∈ d) :
    d.dominates a b = true ↔ ν.value a ≠ ν.value b ∧ ν.value a + ν.value b = ν.value a := by
  rw [dominates, Bool.and_eq_true, ν.beq_iff (ν.add_mem ha hb) ha, ν.value_add ha hb]
  refine and_congr_left fun _ => ?_
  rw [bne, Bool.not_eq_true', ne_eq, ← ν.beq_iff ha hb, Bool.not_eq_true]

theorem value_accumulate {total term : α} (htotal : total ∈ d) (hterm : term ∈ d) :
    ν.value (d.accumulate total term) = ν.value total + ν.value term := by
  unfold accumulate
  split
  next empty => rw [(ν.isZero_iff htotal).mp empty, zero_add]
  next => exact ν.value_add htotal hterm

include ν in
theorem accumulate_mem {total term : α} (htotal : total ∈ d) (hterm : term ∈ d) :
    d.accumulate total term ∈ d := by
  unfold accumulate
  split
  · exact hterm
  · exact ν.add_mem htotal hterm

private theorem foldl_accumulate_spec (terms : List α) (total : α) (htotal : total ∈ d)
    (hterms : ∀ a ∈ terms, a ∈ d) :
    terms.foldl d.accumulate total ∈ d ∧
    ν.value (terms.foldl d.accumulate total) = ν.value total + (terms.map ν.value).sum := by
  induction terms generalizing total with
  | nil => simp [htotal]
  | cons a terms ih =>
    have ha : a ∈ d := hterms a (by simp)
    obtain ⟨member, value⟩ := ih (d.accumulate total a) (ν.accumulate_mem htotal ha)
      (fun b hb => hterms b (List.mem_cons_of_mem _ hb))
    refine ⟨member, ?_⟩
    rw [List.foldl_cons, value, ν.value_accumulate htotal ha, List.map_cons, List.sum_cons,
      add_assoc]

-- leaving out terms of value zero changes no sum
theorem sum_map_filter {γ : Type} {keep : γ → Bool} {f : γ → β} {xs : List γ}
    (dropped : ∀ x ∈ xs, keep x = false → f x = 0) :
    ((xs.filter keep).map f).sum = (xs.map f).sum := by
  induction xs with
  | nil => rfl
  | cons x xs ih =>
    have rest := ih fun y hy => dropped y (List.mem_cons_of_mem _ hy)
    cases kept : keep x with
    | true => simp [kept, rest]
    | false => simp [kept, rest, dropped x List.mem_cons_self kept]

include ν in
theorem sum_mem {terms : List α} (hterms : ∀ a ∈ terms, a ∈ d) : d.sum terms ∈ d :=
  (ν.foldl_accumulate_spec (terms.filter fun a => !d.isZero a) d.zero ν.zero_mem
    fun a ha => hterms a (List.mem_of_mem_filter ha)).1

theorem value_sum {terms : List α} (hterms : ∀ a ∈ terms, a ∈ d) :
    ν.value (d.sum terms) = (terms.map ν.value).sum := by
  -- the fold starts from zero, which stands for "no term yet"
  have folded := (ν.foldl_accumulate_spec (terms.filter fun a => !d.isZero a) d.zero ν.zero_mem
    fun a ha => hterms a (List.mem_of_mem_filter ha)).2
  rw [sum, folded, ν.value_zero, zero_add]
  refine sum_map_filter fun a ha skipped => ?_
  rw [Bool.not_eq_false'] at skipped
  exact (ν.isZero_iff (hterms a ha)).mp skipped

/-- The value of a pair of factors. -/
def product (factors : α × α) : β := ν.value factors.1 * ν.value factors.2

private theorem terms_spec (pairs : List (α × α)) (hpairs : ∀ p ∈ pairs, p.1 ∈ d ∧ p.2 ∈ d) :
    (∀ a ∈ pairs.filterMap d.term?, a ∈ d) ∧
    ((pairs.filterMap d.term?).map ν.value).sum = (pairs.map ν.product).sum := by
  induction pairs with
  | nil => simp
  | cons p pairs ih =>
    obtain ⟨members, total⟩ := ih fun q hq => hpairs q (List.mem_cons_of_mem _ hq)
    obtain ⟨left, right⟩ := hpairs p (by simp)
    by_cases skipped : (d.isZero p.1 || d.isZero p.2) = true
    · have none : d.term? p = none := by simp only [term?, if_pos skipped]
      have vanishes : ν.product p = 0 := by
        rcases (Bool.or_eq_true _ _).mp skipped with first | second
        · rw [product, (ν.isZero_iff left).mp first, zero_mul]
        · rw [product, (ν.isZero_iff right).mp second, mul_zero]
      rw [List.filterMap_cons_none none, List.map_cons, List.sum_cons, vanishes, zero_add]
      exact ⟨members, total⟩
    · have some : d.term? p = some (d.mul p.1 p.2) := by simp only [term?, if_neg skipped]
      rw [List.filterMap_cons_some some]
      constructor
      · intro a ha
        rcases List.mem_cons.mp ha with rfl | later
        · exact ν.mul_mem left right
        · exact members a later
      · rw [List.map_cons, List.sum_cons, total, ν.value_mul left right, List.map_cons,
          List.sum_cons, product]

include ν in
theorem dot_mem {xs ys : List α} (hxs : ∀ a ∈ xs, a ∈ d) (hys : ∀ a ∈ ys, a ∈ d) :
    d.dot xs ys ∈ d :=
  ν.sum_mem (ν.terms_spec _ fun _ hp =>
    ⟨hxs _ (List.of_mem_zip hp).1, hys _ (List.of_mem_zip hp).2⟩).1

/-- A product that skips zero factors has the value of the plain one. -/
theorem value_dot {xs ys : List α} (hxs : ∀ a ∈ xs, a ∈ d) (hys : ∀ a ∈ ys, a ∈ d) :
    ν.value (d.dot xs ys) = ((xs.zip ys).map ν.product).sum := by
  obtain ⟨members, total⟩ := ν.terms_spec (xs.zip ys) fun _ hp =>
    ⟨hxs _ (List.of_mem_zip hp).1, hys _ (List.of_mem_zip hp).2⟩
  rw [dot, ν.value_sum members, total]

end Valuation

end Dioid

end TropicalAlgebra
