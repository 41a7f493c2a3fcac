import TropicalAlgebra.Proofs.Dioid.Outside
import TropicalAlgebra.Proofs.Matrix.AlongProducts

/-!
# Products that leave the domain

A product of elements may overflow or, where zero is not an element, underflow. Such a product wins
over every other term of its sum. So a check of the finished sums finds it, wherever it stands.
-/

namespace TropicalAlgebra

open Binary64

variable {α : Type} [Scalar α]

namespace Dioid

/-- The laws that survive rounding, with sums that are elements only if both operands are. -/
structure Exposing (d : Dioid α) (terms : Set α) : Prop where
  distributive : d.Distributive d.elements terms
  exchangeable : d.Exchangeable
  add_mem_iff : ∀ {a b}, a ∈ terms → b ∈ terms → (d.add a b ∈ d ↔ a ∈ d ∧ b ∈ d)

/-- The product of two factors is an element, or it is not formed since a factor is zero. -/
def Contained (d : Dioid α) (a b : α) : Prop :=
  d.isZero a = false → d.isZero b = false → d.mul a b ∈ d

namespace Exposing

variable {d : Dioid α} {terms : Set α} (law : d.Exposing terms) {a b : α}

include law

/-- A total of zero gives way to the next term, but zero is an element. -/
theorem accumulate_mem_iff (ha : a ∈ terms) (hb : b ∈ terms) :
    d.accumulate a b ∈ d ↔ a ∈ d ∧ b ∈ d := by
  unfold accumulate
  split
  next empty => simp only [law.exchangeable.mem_of_isZero empty, true_and]
  next => exact law.add_mem_iff ha hb

theorem foldl_accumulate_mem_iff {xs : List α} (members : ∀ b ∈ xs, b ∈ terms) (ha : a ∈ terms) :
    xs.foldl d.accumulate a ∈ d ↔ a ∈ d ∧ ∀ b ∈ xs, b ∈ d := by
  -- a running total is itself a term, whatever it has absorbed
  induction xs generalizing a with
  | nil => simp
  | cons b xs ih =>
    rw [List.forall_mem_cons] at members
    obtain ⟨hb, rest⟩ := members
    rw [List.foldl_cons, ih rest (law.distributive.annihilating.same_accumulate ha hb).1,
      law.accumulate_mem_iff ha hb, List.forall_mem_cons, and_assoc]

/-- No term of a sum hides another one. -/
theorem sum_mem_iff {xs : List α} (members : ∀ b ∈ xs, b ∈ terms) :
    d.sum xs ∈ d ↔ ∀ b ∈ xs, b ∈ d := by
  have kept : ∀ b ∈ xs.filter fun a => !d.isZero a, b ∈ terms := by
    intro b hb
    exact members b (List.mem_of_mem_filter hb)
  rw [sum, law.foldl_accumulate_mem_iff kept law.distributive.zero_term]
  constructor
  · -- what the filter leaves out equals zero
    rintro ⟨-, elements⟩ b hb
    by_cases empty : d.isZero b = true
    · exact law.exchangeable.mem_of_isZero empty
    · exact elements b (List.mem_filter.mpr ⟨hb, by simpa using empty⟩)
  · intro elements
    exact ⟨law.exchangeable.zero_mem, fun b hb => elements b (List.mem_of_mem_filter hb)⟩

theorem dot_mem_iff {xs ys : List α} (hxs : ∀ b ∈ xs, b ∈ d) (hys : ∀ b ∈ ys, b ∈ d) :
    d.dot xs ys ∈ d ↔ ∀ p ∈ xs.zip ys, d.Contained p.1 p.2 := by
  rw [dot, law.sum_mem_iff (law.distributive.formed_term hxs hys)]
  simp only [List.mem_filterMap, term?, Option.ite_none_left_eq_some, Option.some.injEq]
  constructor
  · intro elements p hp left right
    exact elements _ ⟨p, hp, by simp [left, right], rfl⟩
  · rintro elements _ ⟨p, hp, formed, rfl⟩
    rw [Bool.or_eq_true, not_or, Bool.not_eq_true, Bool.not_eq_true] at formed
    exact elements p hp formed.1 formed.2

end Exposing

end Dioid

namespace Matrix

variable {d : Dioid α} {terms : Set α} {A B : Matrix α}

theorem products_mem_iff (law : d.Exposing terms) (hA : ∀ a ∈ A.toList, a ∈ d)
    (hB : ∀ b ∈ B.toList, b ∈ d) (fits : A.cols = B.rows) :
    (∀ a ∈ (products d A B).toList, a ∈ d) ↔
      ∀ i c j, d.Contained (A.cell i c) (B.cell (c.cast fits) j) := by
  have cell_mem_iff (i : Fin A.rows) (j : Fin B.cols) :
      (products d A B).cell i j ∈ d ↔
        ∀ p ∈ (A.row i).zip (B.column j), d.Contained p.1 p.2 := by
    have cell : (products d A B).cell i j = d.dot (A.row i) (B.column j) := cell_ofFn i j
    rw [cell]
    exact law.dot_mem_iff (row_mem_of_members hA i) (column_mem_of_members hB j)
  constructor
  · intro elements i c j
    have total := elements _ (mem_toList.mpr ⟨i, j, rfl⟩)
    exact (cell_mem_iff i j).mp total _ (mem_zip_row_column.mpr ⟨c, c.2, fits ▸ c.2, rfl⟩)
  · intro inside a ha
    obtain ⟨i, j, rfl⟩ := mem_toList.mp ha
    refine (cell_mem_iff i j).mpr fun p hp => ?_
    obtain ⟨c, hc, hc', rfl⟩ := mem_zip_row_column.mp hp
    exact inside i ⟨c, hc⟩ j

/-- A product is there if every product of two cells that it is made of is an element. -/
theorem exists_mul_eq_ok_iff (law : d.Exposing terms) (hA : ∀ a ∈ A.toList, a ∈ d)
    (hB : ∀ b ∈ B.toList, b ∈ d) (fits : A.cols = B.rows) :
    (∃ V, A.mul d B = .ok V) ↔
      ∀ i c j, d.Contained (A.cell i c) (B.cell (c.cast fits) j) := by
  rw [← products_mem_iff law hA hB fits]
  have alike := mul_alike_products law.exchangeable hA hB fits
  constructor
  · rintro ⟨V, computed⟩
    obtain ⟨N, accepted, -⟩ := alike.exists_ok computed
    exact ((checked_eq_ok_iff d).mp accepted).1
  · intro elements
    obtain ⟨V, computed, -⟩ := alike.flip.exists_ok ((checked_eq_ok_iff d).mpr ⟨elements, rfl⟩)
    exact ⟨V, computed⟩

/-- Otherwise the product is refused, and for no other reason. -/
theorem mul_eq_error_iff (law : d.Exposing terms) (hA : ∀ a ∈ A.toList, a ∈ d)
    (hB : ∀ b ∈ B.toList, b ∈ d) (fits : A.cols = B.rows) :
    (∃ a, A.mul d B = .error (d.domainError a)) ↔
      ¬ ∀ i c j, d.Contained (A.cell i c) (B.cell (c.cast fits) j) := by
  rw [← exists_mul_eq_ok_iff law hA hB fits]
  have safe := safe_mul law.exchangeable.zero_mem (A := A) (B := B) rfl fits rfl
  constructor
  · rintro ⟨a, refused⟩ ⟨V, computed⟩
    rw [refused] at computed
    nomatch computed
  · intro failed
    cases computed : A.mul d B with
    | ok V => exact absurd ⟨V, computed⟩ failed
    | error e =>
      obtain ⟨a, rfl⟩ := safe.exists_refused computed
      exact ⟨a, rfl⟩

end Matrix

/-! ### The four dioids -/

namespace AlgebraName

theorem exposing (n : AlgebraName) : (n.dioid : Dioid Float).Exposing n.terms where
  distributive := n.distributive
  exchangeable := n.exchangeable
  add_mem_iff := n.add_mem_iff

end AlgebraName

namespace Matrix

/-- In each of the four algebras over floating-point numbers, the terms of a cell do not mask one
that is outside. -/
theorem exists_mul_domainError_iff (n : AlgebraName) {A B : Matrix Float}
    (hA : ∀ a ∈ A.toList, a ∈ (n.dioid : Dioid Float))
    (hB : ∀ b ∈ B.toList, b ∈ (n.dioid : Dioid Float)) (fits : A.cols = B.rows) :
    (∃ a, A.mul n.dioid B = .error (n.dioid.domainError a)) ↔
      ∃ (i : Fin A.rows) (c : Fin A.cols) (j : Fin B.cols),
        n.dioid.isZero (A.cell i c) = false ∧ n.dioid.isZero (B.cell (c.cast fits) j) = false ∧
          n.dioid.mul (A.cell i c) (B.cell (c.cast fits) j) ∉ (n.dioid : Dioid Float) := by
  rw [mul_eq_error_iff n.exposing hA hB fits]
  simp only [Dioid.Contained, not_forall, exists_prop]

/-- A row and a column whose first entries are too small to be multiplied. -/
def tinyRow : Matrix Float := .ofVectors #v[#v[1e-200, 1]]

def tinyColumn : Matrix Float := .ofVectors #v[#v[1e-200], #v[1]]

/-- The first product underflows to zero. In min-times it wins over the second one and is no
element; in max-times the second one wins over it. -/
theorem exists_mul_domainError_tiny :
    (∃ a, tinyRow.mul .minTimes tinyColumn = .error (Dioid.minTimes.domainError a)) ∧
      ¬ ∃ a, tinyRow.mul .maxTimes tinyColumn = .error (Dioid.maxTimes.domainError a) := by
  have underflow := exists_mul_domainError_iff .minTimes (A := tinyRow) (B := tinyColumn)
    (by decide +kernel) (by decide +kernel) rfl
  have harmless := exists_mul_domainError_iff .maxTimes (A := tinyRow) (B := tinyColumn)
    (by decide +kernel) (by decide +kernel) rfl
  constructor
  · exact underflow.mpr ⟨⟨0, tinyRow.rows_pos⟩, ⟨0, tinyRow.cols_pos⟩, ⟨0, tinyColumn.cols_pos⟩,
      by decide +kernel⟩
  · exact mt harmless.mp (by decide +kernel)

end Matrix

end TropicalAlgebra
