import TropicalAlgebra.Matrix.Arithmetic
import TropicalAlgebra.Proofs.Dioid.Exact
import TropicalAlgebra.Proofs.Matrix.Reading
import TropicalAlgebra.Proofs.Residuation

/-!
# Residuation of stored matrices

Over an exact dioid the pseudo-inverse reads the inverse heights, and the closed forms of
residuation compute the greatest vector and its multiples.
-/

namespace TropicalAlgebra

namespace Matrix

open Dioid (Chart)

variable {d : Dioid ExtendedRational} {χ : d.Chart} {m p : Nat}

/-- `x` is a column with the heights `v`. -/
abbrev ReadsColumn (χ : d.Chart) (x : Matrix ExtendedRational) (v : Fin m → Height) : Prop :=
  x.Reads χ.toValuation fun i (_ : Fin 1) => v i

theorem Reads.ext {A B : Matrix ExtendedRational} {F : Fin m → Fin p → Height}
    (readA : A.Reads χ.toValuation F) (readB : B.Reads χ.toValuation F) : A = B := by
  refine ext_cell (readA.rows.trans readB.rows.symm) (readA.cols.trans readB.cols.symm) ?_
  intro i j
  rw [← χ.value_eq_iff (readA.mem _ _) (readB.mem _ _), readA.value_cell, readB.value_cell]
  rfl

theorem ReadsColumn.unique {x : Matrix ExtendedRational} {v w : Fin m → Height}
    (read : x.ReadsColumn χ v) (read' : x.ReadsColumn χ w) : v = w :=
  funext fun i => (read.value i 0).symm.trans (read'.value i 0)

theorem exists_readsColumn (χ : d.Chart) {x : Matrix ExtendedRational}
    (elements : ∀ a ∈ x.toList, a ∈ d) (shape : x.shape = ⟨m, 1⟩) :
    ∃ v : Fin m → Height, x.ReadsColumn χ v := by
  obtain ⟨rows, cols⟩ := Shape.mk.inj shape
  obtain ⟨F, read⟩ := exists_reads χ.toValuation elements rows cols
  -- there is only one column to read
  refine ⟨fun i => F i 0, ?_⟩
  convert read using 3 with i j
  rw [Subsingleton.elim j 0]

theorem Reads.pseudoInverse {M : Matrix ExtendedRational} {F : Fin m → Fin p → Height}
    (read : M.Reads χ.toValuation F) :
    (M.pseudoInverse d).Reads χ.toValuation fun j i => (F i j)⁻¹ :=
  read.transpose.map (g := fun x => x⁻¹) fun _ member => χ.value_inv member

theorem ReadsColumn.ne_zero {x : Matrix ExtendedRational} {v : Fin m → Height}
    (read : x.ReadsColumn χ v) (zeroFree : ∀ a ∈ x.toList, a ≠ d.zero) (i : Fin m) : v i ≠ 0 := by
  rw [← read.value i 0, Ne, χ.value_eq_zero_iff (read.mem _ _)]
  exact zeroFree _ (mem_toList.mpr ⟨_, _, rfl⟩)

theorem Reads.row_ne_zero {M : Matrix ExtendedRational} {F : Fin m → Fin p → Height}
    (read : M.Reads χ.toValuation F) (row : ∀ i, ∃ j, M.cell i j ≠ d.zero) (i : Fin m) :
    ∃ j, F i j ≠ 0 := by
  obtain ⟨j, entry⟩ := row (i.cast read.rows.symm)
  refine ⟨j.cast read.cols, ?_⟩
  rw [← read.value i, Ne, χ.value_eq_zero_iff (read.mem _ _)]
  exact entry

/-- A product with a column reads an image. -/
theorem Reads.mulColumn {A x : Matrix ExtendedRational} {F : Fin m → Fin p → Height}
    {v : Fin p → Height} (readA : A.Reads χ.toValuation F) (read : x.ReadsColumn χ v) :
    ∃ b, A.mul d x = .ok b ∧ b.ReadsColumn χ (Height.image F v) :=
  readA.mul read

theorem Reads.subsolution {B b : Matrix ExtendedRational} {F : Fin m → Fin p → Height}
    {t : Fin m → Height} (readB : B.Reads χ.toValuation F) (target : b.ReadsColumn χ t) :
    ∃ g, B.subsolution d b = .ok g ∧ g.ReadsColumn χ (Height.greatest F t) := by
  obtain ⟨product, multiplied, read⟩ := target.pseudoInverse.mul readB
  refine ⟨product.pseudoInverse d, ?_, read.pseudoInverse⟩
  simp [Matrix.subsolution, multiplied, bind, Except.bind, pure, Except.pure]

theorem Reads.centred {x : Matrix ExtendedRational} {v : Fin p → Height}
    (read : x.ReadsColumn χ v) {gap : ExtendedRational} (member : gap ∈ d) :
    ∃ y s, x.centred d gap = .ok y ∧ y.ReadsColumn χ (fun j => v j * s) ∧
      s * s = χ.value gap := by
  obtain ⟨half, power, inside, root⟩ := χ.exists_sqrt member
  obtain ⟨y, scaled, readY⟩ := read.scale inside
  refine ⟨y, χ.value half, ?_, readY, root⟩
  simp [Matrix.centred, power, scaled, bind, Except.bind]

end Matrix

end TropicalAlgebra
