import Mathlib.Data.Set.Defs
import TropicalAlgebra.Matrix.Arithmetic

/-!
# Zeros that can be left out

The operations leave out zeros wherever they can: a sum has no zero terms and starts again when its
total is zero, and a product with a zero factor is not formed. If zero is neutral for sums and
absorbing for products, then this does not show. Each operation then agrees with the plain one.
-/

namespace TropicalAlgebra

namespace Dioid

variable {α : Type}

/-- The sum of all terms, from left to right. -/
def total (d : Dioid α) (xs : List α) : α := xs.foldl d.add d.zero

variable [Scalar α]

/-- Zero is neutral for sums of terms and absorbing for products of factors, which are terms. This
is up to `same`, an equality of terms that sums respect; whether a term is taken for zero is a
matter of that equality as well. -/
structure Annihilating (d : Dioid α) (same : α → α → Prop) (factors terms : Set α) : Prop where
  factor_term : ∀ {a}, a ∈ factors → a ∈ terms
  zero_term : d.zero ∈ terms
  add_term : ∀ {a b}, a ∈ terms → b ∈ terms → d.add a b ∈ terms
  mul_term : ∀ {a b}, a ∈ factors → b ∈ factors → d.mul a b ∈ terms
  refl : ∀ {a}, a ∈ terms → same a a
  symm : ∀ {a b}, a ∈ terms → b ∈ terms → same a b → same b a
  trans : ∀ {a b c}, a ∈ terms → b ∈ terms → c ∈ terms → same a b → same b c → same a c
  same_zero : ∀ {a}, a ∈ terms → d.isZero a = true → same a d.zero
  add_congr : ∀ {a a' b b'}, a ∈ terms → a' ∈ terms → b ∈ terms → b' ∈ terms → same a a' →
    same b b' → same (d.add a b) (d.add a' b')
  zero_add : ∀ {a}, a ∈ terms → same (d.add d.zero a) a
  add_zero : ∀ {a}, a ∈ terms → same (d.add a d.zero) a
  zero_mul : ∀ {a b}, a ∈ factors → b ∈ factors → d.isZero a = true → same (d.mul a b) d.zero
  mul_zero : ∀ {a b}, a ∈ factors → b ∈ factors → d.isZero b = true → same (d.mul a b) d.zero

namespace Annihilating

variable {d : Dioid α} {same : α → α → Prop} {factors terms : Set α}
  (law : d.Annihilating same factors terms) {a a' b b' : α} {xs ys : List α}

include law

/-! ### Sums of two -/

theorem add_same_right (ha : a ∈ terms) (hb : b ∈ terms) (empty : same a d.zero) :
    same (d.add a b) b := by
  have cleared := law.add_congr ha law.zero_term hb hb empty (law.refl hb)
  exact law.trans (law.add_term ha hb) (law.add_term law.zero_term hb) hb cleared (law.zero_add hb)

theorem add_same_left (ha : a ∈ terms) (hb : b ∈ terms) (empty : same b d.zero) :
    same (d.add a b) a := by
  have cleared := law.add_congr ha ha hb law.zero_term (law.refl ha) empty
  exact law.trans (law.add_term ha hb) (law.add_term ha law.zero_term) ha cleared (law.add_zero ha)

/-- A total that starts again from zero. -/
theorem same_accumulate (ha : a ∈ terms) (hb : b ∈ terms) :
    d.accumulate a b ∈ terms ∧ same (d.accumulate a b) (d.add a b) := by
  have sum := law.add_term ha hb
  unfold accumulate
  split
  next empty =>
    exact ⟨hb, law.symm sum hb (law.add_same_right ha hb (law.same_zero ha empty))⟩
  next => exact ⟨sum, law.refl sum⟩

theorem same_addCell (ha : a ∈ terms) (hb : b ∈ terms) :
    Matrix.addCell d a b ∈ terms ∧ same (Matrix.addCell d a b) (d.add a b) := by
  have sum := law.add_term ha hb
  unfold Matrix.addCell
  split
  next empty =>
    exact ⟨hb, law.symm sum hb (law.add_same_right ha hb (law.same_zero ha empty))⟩
  next =>
    split
    next empty =>
      exact ⟨ha, law.symm sum ha (law.add_same_left ha hb (law.same_zero hb empty))⟩
    next => exact ⟨sum, law.refl sum⟩

/-! ### Sums of lists -/

theorem total_term (members : ∀ b ∈ xs, b ∈ terms) : d.total xs ∈ terms :=
  List.foldlRecOn xs d.add law.zero_term fun _ ha b hb => law.add_term ha (members b hb)

/-- Of the values of `f`, those that equal zero may be missing among the values of `f?`. -/
def Omits (_ : d.Annihilating same factors terms) {γ : Type} (f? : γ → Option α) (f : γ → α)
    (x : γ) : Prop :=
  f x ∈ terms ∧ (f? x = some (f x) ∨ f? x = none ∧ same (f x) d.zero)

theorem same_foldl {γ : Type} {f? : γ → Option α} {f : γ → α} {xs : List γ}
    (omits : ∀ x ∈ xs, law.Omits f? f x) (ha : a ∈ terms) (ha' : a' ∈ terms) (h : same a a') :
    (xs.filterMap f?).foldl d.accumulate a ∈ terms ∧
      same ((xs.filterMap f?).foldl d.accumulate a) ((xs.map f).foldl d.add a') := by
  -- the two running totals stay the same, whether or not the next term is left out
  induction xs generalizing a a' with
  | nil => exact ⟨ha, h⟩
  | cons x xs ih =>
    rw [List.forall_mem_cons] at omits
    obtain ⟨⟨hx, formed | ⟨skipped, empty⟩⟩, rest⟩ := omits
    · obtain ⟨member, plain⟩ := law.same_accumulate ha hx
      have sum := law.add_congr ha ha' hx hx h (law.refl hx)
      rw [List.filterMap_cons_some formed]
      exact ih rest member (law.add_term ha' hx)
        (law.trans member (law.add_term ha hx) (law.add_term ha' hx) plain sum)
    · have unchanged := law.symm (law.add_term ha' hx) ha' (law.add_same_left ha' hx empty)
      rw [List.filterMap_cons_none skipped]
      exact ih rest ha (law.add_term ha' hx)
        (law.trans ha ha' (law.add_term ha' hx) h unchanged)

theorem same_sum (members : ∀ b ∈ xs, b ∈ terms) :
    d.sum xs ∈ terms ∧ same (d.sum xs) (d.total xs) := by
  have omits : ∀ b ∈ xs, law.Omits (Option.guard fun b => !d.isZero b) id b := by
    intro b hb
    refine ⟨members b hb, ?_⟩
    cases empty : d.isZero b with
    | false => exact .inl (by simp [Option.guard, empty])
    | true => exact .inr ⟨by simp [Option.guard, empty], law.same_zero (members b hb) empty⟩
  have folded := law.same_foldl omits law.zero_term law.zero_term (law.refl law.zero_term)
  rwa [List.filterMap_eq_filter, List.map_id] at folded

/-! ### Products -/

theorem mul_same_zero (ha : a ∈ factors) (hb : b ∈ factors)
    (empty : (d.isZero a || d.isZero b) = true) : same (d.mul a b) d.zero := by
  rcases Bool.or_eq_true_iff.mp empty with left | right
  · exact law.zero_mul ha hb left
  · exact law.mul_zero ha hb right

theorem products_term (hxs : ∀ b ∈ xs, b ∈ factors) (hys : ∀ b ∈ ys, b ∈ factors) :
    ∀ b ∈ (xs.zip ys).map fun p => d.mul p.1 p.2, b ∈ terms := by
  intro b hb
  obtain ⟨p, hp, rfl⟩ := List.mem_map.mp hb
  exact law.mul_term (hxs _ (List.of_mem_zip hp).1) (hys _ (List.of_mem_zip hp).2)

theorem same_dot (hxs : ∀ b ∈ xs, b ∈ factors) (hys : ∀ b ∈ ys, b ∈ factors) :
    d.dot xs ys ∈ terms ∧
      same (d.dot xs ys) (d.total ((xs.zip ys).map fun p => d.mul p.1 p.2)) := by
  -- a product is missing if a factor is zero, or else if it is zero itself
  have omits : ∀ p ∈ xs.zip ys,
      law.Omits (fun p => (d.term? p).filter fun b => !d.isZero b) (fun p => d.mul p.1 p.2) p := by
    intro p hp
    have left := hxs _ (List.of_mem_zip hp).1
    have right := hys _ (List.of_mem_zip hp).2
    have product := law.mul_term left right
    refine ⟨product, ?_⟩
    cases skipped : d.isZero p.1 || d.isZero p.2 with
    | true => exact .inr ⟨by simp [term?, skipped], law.mul_same_zero left right skipped⟩
    | false =>
      cases empty : d.isZero (d.mul p.1 p.2) with
      | false => exact .inl (by simp [term?, skipped, empty])
      | true => exact .inr ⟨by simp [term?, skipped, empty], law.same_zero product empty⟩
  have folded := law.same_foldl omits law.zero_term law.zero_term (law.refl law.zero_term)
  rwa [← List.filter_filterMap] at folded

end Annihilating

end Dioid

end TropicalAlgebra
