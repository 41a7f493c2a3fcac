import Mathlib.Algebra.Order.Kleene
import TropicalAlgebra.Proofs.Matrix.Reading

/-!
# The order of a dioid

A scalar lies below another if it adds nothing to it. Matrices are ordered cell by cell.
-/

namespace TropicalAlgebra

variable {α : Type} [Scalar α]

/-- In a sum with `b`, the scalar `a` adds nothing. -/
def Dioid.le (d : Dioid α) (a b : α) : Bool := d.add a b == b

/-- Each cell lies below the matching one. -/
def Matrix.le (d : Dioid α) (A B : Matrix α) : Bool := Matrix.all₂ d.le A B

variable {d : Dioid α} {β : Type} [IdemCommSemiring β]

theorem Dioid.Valuation.le_iff (ν : d.Valuation β) {a b : α} (ha : a ∈ d) (hb : b ∈ d) :
    d.le a b = true ↔ ν.value a ≤ ν.value b := by
  rw [Dioid.le, ν.beq_iff (ν.add_mem ha hb) hb, ν.value_add ha hb, add_eq_right_iff_le]

namespace Matrix

variable {ν : d.Valuation β} {m n : Nat} {A B : Matrix α} {F G : Fin m → Fin n → β}

theorem Reads.le_iff (readA : A.Reads ν F) (readB : B.Reads ν G) :
    A.le d B = true ↔ ∀ i j, F i j ≤ G i j := by
  rw [Matrix.le, all₂_iff]
  constructor
  · rintro ⟨hr, hc, cells⟩ i j
    have below := cells (i.cast readA.rows.symm) (j.cast readA.cols.symm)
    rw [ν.le_iff (readA.mem _ _) (readB.mem _ _), readA.value] at below
    exact below.trans_eq (readB.value i j)
  · intro below
    refine ⟨readA.rows.trans readB.rows.symm, readA.cols.trans readB.cols.symm, fun i j => ?_⟩
    rw [ν.le_iff (readA.mem _ _) (readB.mem _ _), readA.value_cell, readB.value_cell]
    exact below _ _

end Matrix

end TropicalAlgebra
