import TropicalAlgebra.Fitting.Fit
import TropicalAlgebra.Proofs.Dioid.Order
import TropicalAlgebra.Proofs.Matrix.Residuation

/-!
# The greatest subsolution

Over an exact dioid the residual of `A` and `b` is the greatest solution of `A ⊗ x ≤ b`: a vector
solves the inequality exactly if it lies below the residual. A column of zeros bounds nothing, so
only vectors that are zero there are compared.
-/

namespace TropicalAlgebra

namespace Height

variable {m p : Nat} {B : Fin m → Fin p → Height} {b : Fin m → Height} {u v : Fin p → Height}

theorem image_mono (lower : ∀ j, u j ≤ v j) (i : Fin m) : image B u i ≤ image B v i := by
  refine sum_le_iff.mpr fun j => ?_
  calc B i j * u j ≤ B i j * v j := by gcongr; exact lower j
    _ ≤ image B v i := le_sum (f := fun j => B i j * v j) j

theorem greatest_eq_zero {j : Fin p} (column : ∀ i, B i j = 0) : greatest B b j = 0 := by
  simp [greatest, column]

/-- The two sides of residuation: an image stays below `b` exactly if the vector stays below the
greatest one. -/
theorem image_le_iff_le_greatest (target : ∀ i, b i ≠ 0)
    (empty : ∀ j, (∀ i, B i j = 0) → u j = 0) :
    (∀ i, image B u i ≤ b i) ↔ ∀ j, u j ≤ greatest B b j := by
  constructor
  · intro below j
    by_cases column : ∀ i, B i j = 0
    · simp [empty j column]
    · -- the entry that is not zero gives a term of the sum that `greatest` inverts
      obtain ⟨i, entry⟩ := not_forall.mp column
      have bounded := inv_eq_zero.not.mp (greatest_ne_zero (target i) entry)
      exact le_greatest below bounded
  · intro lower i
    exact (image_mono lower i).trans (image_greatest_le (target i))

end Height

namespace Matrix

variable {d : Dioid ExtendedRational}

/-- A vector of elements that fits `A` and is zero wherever `A` has a column of zeros. -/
structure Supports (d : Dioid ExtendedRational) (A x : Matrix ExtendedRational) : Prop where
  sized : x.Over d A.cols 1
  empty : ∀ j : Fin A.cols, (∀ i, A.cell i j = d.zero) → x.get? j 0 = some d.zero

/-- `g` solves `A ⊗ x ≤ b`, and a vector does exactly if it lies below `g`. -/
structure GreatestSubsolution (d : Dioid ExtendedRational) (A b g : Matrix ExtendedRational) :
    Prop where
  supports : A.Supports d g
  solves : ∃ c, A.mul d g = .ok c ∧ c.le d b = true
  greatest : ∀ x, A.Supports d x →
    ∃ c, A.mul d x = .ok c ∧ (c.le d b = true ↔ x.le d g = true)

section Reading

variable {χ : d.Chart} {m p : Nat} {A x b g : Matrix ExtendedRational}
  {F : Fin m → Fin p → Height} {u v : Fin p → Height} {t : Fin m → Height}

theorem ReadsColumn.get?_eq_zero_iff (read : x.ReadsColumn χ u) (j : Fin p) :
    x.get? j 0 = some d.zero ↔ u j = 0 := by
  have found : x.get? j 0 = some (x.cell (j.cast read.rows.symm) (Fin.cast read.cols.symm 0)) :=
    x.get?_eq_some (j.cast read.rows.symm) (Fin.cast read.cols.symm 0)
  rw [found, ← read.value j 0, χ.value_eq_zero_iff (read.mem _ _), Option.some.injEq]

theorem Reads.column_eq_zero_iff (read : A.Reads χ.toValuation F) (j : Fin p) :
    (∀ i, A.cell i (j.cast read.cols.symm) = d.zero) ↔ ∀ i, F i j = 0 := by
  constructor
  · intro column i
    rw [← read.value i j, χ.value_eq_zero_iff (read.mem _ _)]
    exact column _
  · intro column i
    rw [← χ.value_eq_zero_iff (read.mem _ _), read.value_cell]
    exact column _

theorem ReadsColumn.le_iff (readX : x.ReadsColumn χ u) (readG : g.ReadsColumn χ v) :
    x.le d g = true ↔ ∀ j, u j ≤ v j := by
  simpa using Reads.le_iff readX readG

/-- What `Supports` says of the heights of a vector. -/
theorem Supports.exists_reads (read : A.Reads χ.toValuation F) (supports : A.Supports d x) :
    ∃ u : Fin p → Height, x.ReadsColumn χ u ∧ ∀ j, (∀ i, F i j = 0) → u j = 0 := by
  have shape : x.shape = ⟨p, 1⟩ := read.cols ▸ supports.sized.shape
  obtain ⟨u, readX⟩ := exists_readsColumn χ supports.sized.elements shape
  refine ⟨u, readX, fun j column => ?_⟩
  rw [← readX.get?_eq_zero_iff]
  exact supports.empty _ ((read.column_eq_zero_iff j).mpr column)

theorem Reads.greatestSubsolution (read : A.Reads χ.toValuation F) (target : b.ReadsColumn χ t)
    (zeroFree : ∀ i, t i ≠ 0) (readG : g.ReadsColumn χ (Height.greatest F t)) :
    GreatestSubsolution d A b g where
  supports := by
    obtain ⟨rfl, rfl, -, -⟩ := id read
    refine ⟨readG.toOver, fun j column => ?_⟩
    rw [readG.get?_eq_zero_iff]
    exact Height.greatest_eq_zero ((read.column_eq_zero_iff j).mp column)
  solves := by
    obtain ⟨c, product, readC⟩ := read.mulColumn readG
    refine ⟨c, product, (readC.le_iff target).mpr fun i => ?_⟩
    exact Height.image_greatest_le (zeroFree i)
  greatest x supports := by
    obtain ⟨u, readX, empty⟩ := supports.exists_reads read
    obtain ⟨c, product, readC⟩ := read.mulColumn readX
    refine ⟨c, product, ?_⟩
    rw [readC.le_iff target, readX.le_iff readG]
    exact Height.image_le_iff_le_greatest zeroFree empty

end Reading

end Matrix

/-! ### Where subsolutions are used -/

theorem TwoSided.exists_subsolution_of_halfStep {α : Type} [Scalar α] {d : Dioid α}
    {lhs rhs x : Matrix α} {h : HalfStep α} (fitted : halfStep d lhs rhs x = .ok h) :
    ∃ b g, lhs.mul d x = .ok b ∧ rhs.subsolution d b = .ok g ∧
      g.centred d h.gap = .ok h.vector := by
  obtain ⟨b, product, rest⟩ := bind_eq_ok_iff.mp fitted
  obtain ⟨g, greatest, rest⟩ := bind_eq_ok_iff.mp rest
  -- reaching `b` and comparing with it give the gap
  obtain ⟨reached, -, rest⟩ := bind_eq_ok_iff.mp rest
  obtain ⟨comparison, -, rest⟩ := bind_eq_ok_iff.mp rest
  obtain ⟨gap, -, rest⟩ := bind_eq_ok_iff.mp rest
  obtain ⟨vector, centred, rest⟩ := bind_eq_ok_iff.mp rest
  obtain rfl := Except.ok.inj rest
  exact ⟨b, g, product, greatest, centred⟩

theorem Samples.exists_subsolution_of_fitPolynomial {α : Type} [Scalar α] {d : Dioid α}
    {s : Samples α} {range : ExponentRange} {fit : PolynomialFit α}
    (fitted : s.fitPolynomial d range = .ok fit) :
    ∃ X y g theta, Matrix.ofPowers d s.points range = .ok X ∧
      Matrix.columnVector s.values = .ok y ∧ X.subsolution d y = .ok g ∧
      g.centred d fit.gap = .ok theta ∧ Polynomial.ofColumn theta range = .ok fit.polynomial := by
  obtain ⟨-, -, rest⟩ := bind_eq_ok_iff.mp fitted
  obtain ⟨X, powers, rest⟩ := bind_eq_ok_iff.mp rest
  obtain ⟨y, column, rest⟩ := bind_eq_ok_iff.mp rest
  obtain ⟨-, -, rest⟩ := bind_eq_ok_iff.mp rest
  obtain ⟨g, greatest, rest⟩ := bind_eq_ok_iff.mp rest
  obtain ⟨reached, -, rest⟩ := bind_eq_ok_iff.mp rest
  obtain ⟨gap, -, rest⟩ := bind_eq_ok_iff.mp rest
  obtain ⟨theta, centred, rest⟩ := bind_eq_ok_iff.mp rest
  obtain ⟨P, built, rest⟩ := bind_eq_ok_iff.mp rest
  obtain rfl := Except.ok.inj rest
  exact ⟨X, y, g, theta, powers, column, greatest, centred, built⟩

namespace Matrix

variable {d : Dioid ExtendedRational}

/-- Over an exact dioid the residual exists and is the greatest subsolution, for every column
without zeros. Half-steps and fits start from it. -/
theorem subsolution_greatest (exact : d.IsExact) :
    (∀ A b : Matrix ExtendedRational, (∀ a ∈ A.toList, a ∈ d) → b.Over d A.rows 1 →
      (∀ a ∈ b.toList, a ≠ d.zero) →
      ∃ g, (do pure ((← (b.pseudoInverse d).mul d A).pseudoInverse d)) = .ok g ∧
        GreatestSubsolution d A b g) ∧
    (∀ (lhs rhs x : Matrix ExtendedRational) (h : TwoSided.HalfStep ExtendedRational),
      TwoSided.halfStep d lhs rhs x = .ok h →
      ∃ b g, lhs.mul d x = .ok b ∧
        (do pure ((← (b.pseudoInverse d).mul d rhs).pseudoInverse d)) = .ok g ∧
        g.centred d h.gap = .ok h.vector) ∧
    ∀ (s : Samples ExtendedRational) (range : ExponentRange)
      (fit : PolynomialFit ExtendedRational), s.fitPolynomial d range = .ok fit →
      ∃ X y g theta, ofPowers d s.points range = .ok X ∧ columnVector s.values = .ok y ∧
        (do pure ((← (y.pseudoInverse d).mul d X).pseudoInverse d)) = .ok g ∧
        g.centred d fit.gap = .ok theta ∧
        Polynomial.ofColumn theta range = .ok fit.polynomial := by
  obtain ⟨χ⟩ := Dioid.Chart.nonempty exact
  refine ⟨fun A b elements sized zeroFree => ?_,
    fun _ _ _ _ => TwoSided.exists_subsolution_of_halfStep,
    fun _ _ _ => Samples.exists_subsolution_of_fitPolynomial⟩
  obtain ⟨F, read⟩ := exists_reads χ.toValuation elements rfl rfl
  obtain ⟨t, target⟩ := exists_readsColumn χ sized.elements sized.shape
  obtain ⟨g, computed, readG⟩ := read.subsolution target
  exact ⟨g, computed, read.greatestSubsolution target (target.ne_zero zeroFree) readG⟩

open ExtendedRational in
/-- Two rows and three columns, one of them without any entry. -/
def idleColumn : Matrix ExtendedRational :=
  .ofVectors #v[#v[rational 1, negInfinity, rational 3], #v[rational 4, negInfinity, negInfinity]]

open ExtendedRational in
def deadlines : Matrix ExtendedRational :=
  (ofVectors #v[#v[rational 5, rational 6]]).transpose

open ExtendedRational in
def latestStarts : Matrix ExtendedRational :=
  (ofVectors #v[#v[rational 2, negInfinity, rational 2]]).transpose

/-- The latest starts that meet both deadlines. The second row decides on the first start, and what
has no successor does not start. -/
theorem subsolution_greatest_idleColumn :
    (do pure ((← (deadlines.pseudoInverse .maxPlus).mul .maxPlus idleColumn).pseudoInverse
      .maxPlus)) = .ok latestStarts ∧
    GreatestSubsolution .maxPlus idleColumn deadlines latestStarts := by
  obtain ⟨g, computed, greatest⟩ := (subsolution_greatest .maxPlus).1 idleColumn deadlines
    (by decide +kernel) ⟨rfl, rfl, by decide +kernel⟩ (by decide +kernel)
  have residual : (do pure ((← (deadlines.pseudoInverse .maxPlus).mul .maxPlus
      idleColumn).pseudoInverse .maxPlus)) = .ok latestStarts := by decide +kernel
  obtain rfl := Except.ok.inj (residual.symm.trans computed)
  exact ⟨residual, greatest⟩

end Matrix

end TropicalAlgebra
