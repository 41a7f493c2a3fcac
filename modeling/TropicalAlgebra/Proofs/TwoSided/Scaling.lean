import TropicalAlgebra.Proofs.Fitting.Diagonal
import TropicalAlgebra.Proofs.TwoSided.HalfStep
import TropicalAlgebra.Proofs.TwoSided.Lockstep

/-!
# Scaled equations

The equations `A ⊗ θ = B ⊗ σ` say the same if each of them is multiplied by a factor of its own, and
a multiple of a solution is a solution. Over an exact dioid the iteration respects both: the factors
of the rows cancel in every half-step, and a factor of the starting vector is one of all vectors.
-/

namespace TropicalAlgebra

open ExtendedRational

/-! ### A common factor -/

theorem ExtendedRational.approxEq_rational (tolerance : ExtendedRational) (p q : Rat) :
    Scalar.approxEq tolerance (rational p) (rational q) =
      decide (rational |p - q| ≤ tolerance) := by
  rw [Scalar.approxEq, isFinite_rational, isFinite_rational, magnitude_sub, Bool.and_true,
    if_pos rfl]

namespace Dioid.Chart

variable {d : Dioid ExtendedRational} (χ : d.Chart)

include χ

theorem mul_rational (p q : Rat) : d.mul (rational p) (rational q) = rational (p + q) := by
  have hp := χ.rational_mem p
  have hq := χ.rational_mem q
  rw [← χ.value_eq_iff (χ.mul_mem hp hq) (χ.rational_mem _), χ.value_mul hp hq, χ.value_rational,
    χ.value_rational, χ.value_rational, mul_add, Height.exp_add]

theorem zero_mul_rational (q : Rat) : d.mul d.zero (rational q) = d.zero := by
  have hq := χ.rational_mem q
  rw [← χ.value_eq_iff (χ.mul_mem χ.zero_mem hq) χ.zero_mem, χ.value_mul χ.zero_mem hq,
    χ.value_zero, zero_mul]

theorem isFinite_zero : Scalar.isFinite d.zero = false := by
  cases zero : d.zero with
  | rational q => exact absurd zero.symm (χ.rational_ne_zero q)
  | negInfinity => rfl
  | infinity => rfl

theorem approxEq_zero_left (tolerance : ExtendedRational) (q : Rat) :
    Scalar.approxEq tolerance d.zero (rational q) = false := by
  rw [Scalar.approxEq, χ.isFinite_zero, Bool.false_and, if_neg Bool.false_ne_true,
    ← Bool.not_eq_true, orderEq_iff]
  exact (χ.rational_ne_zero q).symm

theorem approxEq_zero_right (tolerance : ExtendedRational) (q : Rat) :
    Scalar.approxEq tolerance (rational q) d.zero = false := by
  rw [Scalar.approxEq, χ.isFinite_zero, Bool.and_false, if_neg Bool.false_ne_true,
    ← Bool.not_eq_true, orderEq_iff]
  exact χ.rational_ne_zero q

/-- Elements are as close as their multiples by a rational number. -/
theorem approxEq_mul (tolerance : ExtendedRational) (c : Rat) {a b : ExtendedRational} (ha : a ∈ d)
    (hb : b ∈ d) :
    Scalar.approxEq tolerance a b =
      Scalar.approxEq tolerance (d.mul a (rational c)) (d.mul b (rational c)) := by
  rcases χ.zero_or_rational ha with rfl | ⟨p, rfl⟩
  · rcases χ.zero_or_rational hb with rfl | ⟨q, rfl⟩
    · rw [χ.zero_mul_rational]
    · rw [χ.zero_mul_rational, χ.mul_rational, χ.approxEq_zero_left, χ.approxEq_zero_left]
  · rcases χ.zero_or_rational hb with rfl | ⟨q, rfl⟩
    · rw [χ.zero_mul_rational, χ.mul_rational, χ.approxEq_zero_right, χ.approxEq_zero_right]
    · rw [χ.mul_rational, χ.mul_rational, approxEq_rational, approxEq_rational,
        add_sub_add_right_eq_sub]

end Dioid.Chart

namespace Matrix

variable {d : Dioid ExtendedRational} {χ : d.Chart}

/-- `y` is the column `x` times `a`. -/
def IsMultiple (χ : d.Chart) (a : ExtendedRational) (x y : Matrix ExtendedRational) : Prop :=
  ∃ (n : Nat) (v : Fin n → Height), x.ReadsColumn χ v ∧ y.ReadsColumn χ fun j => v j * χ.value a

namespace IsMultiple

variable {a : ExtendedRational} {x y x' y' : Matrix ExtendedRational}

theorem scale (multiple : IsMultiple χ a x y) (member : a ∈ d) : x.scale d a = .ok y := by
  obtain ⟨n, v, readX, readY⟩ := multiple
  obtain ⟨z, scaled, readZ⟩ := readX.scale member
  obtain rfl := readZ.ext readY
  exact scaled

theorem alike (multiple : IsMultiple χ a x y) (member : a ∈ d) :
    x.Alike (fun b c => b ∈ d ∧ c = d.mul b a) y := by
  obtain ⟨n, v, readX, readY⟩ := multiple
  refine ⟨readX.rows.trans readY.rows.symm, readX.cols.trans readY.cols.symm, ?_⟩
  intro i j hi hj hi' hj'
  have inside := readX.mem ⟨i, hi⟩ ⟨j, hj⟩
  refine ⟨inside, ?_⟩
  rw [← χ.value_eq_iff (readY.mem _ _) (χ.mul_mem inside member), χ.value_mul inside member,
    readX.value_cell, readY.value_cell]
  rfl

/-- The tests of an iteration do not tell vectors from their multiples. -/
theorem approxEq {c : Rat} (left : IsMultiple χ (rational c) x y)
    (right : IsMultiple χ (rational c) x' y') (tolerance : ExtendedRational) :
    x.approxEq tolerance x' = y.approxEq tolerance y' := by
  have member := χ.rational_mem c
  refine (left.alike member).all₂ (right.alike member) ?_
  rintro b _ b' _ ⟨hb, rfl⟩ ⟨hb', rfl⟩
  exact χ.approxEq_mul tolerance c hb hb'

end IsMultiple

/-- The rows of `N` are those of `M`, which reads `F`, times the factors `δ`. -/
structure ScalesRows {m n : Nat} (χ : d.Chart) (δ : Fin m → Height) (F : Fin m → Fin n → Height)
    (M N : Matrix ExtendedRational) : Prop where
  reads : M.Reads χ.toValuation F
  scaled : N.Reads χ.toValuation fun i j => δ i * F i j

theorem IsDiagonal.reads {values : List ExtendedRational} {D : Matrix ExtendedRational}
    (diagonal : D.IsDiagonal d values) :
    D.Reads χ.toValuation fun (i j : Fin values.length) =>
      if i = j then χ.value values[i] else 0 where
  rows := diagonal.rows
  cols := diagonal.cols
  mem i j := by
    rw [diagonal.cell i j i.isLt j.isLt (i.isLt.trans_eq diagonal.rows)]
    split
    · exact diagonal.mem _ (List.getElem_mem _)
    · exact χ.zero_mem
  value i j := by
    have cell := diagonal.cell i j (i.isLt.trans_eq diagonal.rows.symm)
      (j.isLt.trans_eq diagonal.cols.symm) i.isLt
    refine (congrArg χ.value cell).trans ?_
    rw [apply_ite χ.value, χ.value_zero]
    simp only [Fin.val_inj, Fin.getElem_fin]

/-- A product with a diagonal matrix scales the rows. -/
theorem IsDiagonal.scalesRows {values : List ExtendedRational} {D M : Matrix ExtendedRational}
    {n : Nat} {F : Fin values.length → Fin n → Height} (diagonal : D.IsDiagonal d values)
    (read : M.Reads χ.toValuation F) :
    ∃ N, D.mul d M = .ok N ∧ ScalesRows χ (fun i => χ.value values[i]) F M N := by
  obtain ⟨N, multiplied, readN⟩ := diagonal.reads.mul read
  simp only [ite_mul, zero_mul, Finset.sum_ite_eq, Finset.mem_univ, if_true] at readN
  exact ⟨N, multiplied, read, readN⟩

end Matrix

namespace TwoSided

open TropicalAlgebra.Matrix
open TropicalAlgebra.Height (image)

variable {d : Dioid ExtendedRational} {χ : d.Chart} {m n p : Nat} {δ : Fin m → Height}
  {a : ExtendedRational}

/-! ### Half-steps -/

section HalfStep

variable (factors : ∀ i, δ i ≠ 0) (nonzero : χ.value a ≠ 0)

include factors nonzero

/-- The factors of the rows cancel in the vector and in the gap, that of the vector only in the
gap. -/
theorem halfStep_scaled {lhs lhs' rhs rhs' x x' : Matrix ExtendedRational}
    {F : Fin m → Fin n → Height} {G : Fin m → Fin p → Height} {v : Fin n → Height}
    (left : ScalesRows χ δ F lhs lhs') (right : ScalesRows χ δ G rhs rhs')
    (readX : x.ReadsColumn χ v) (readX' : x'.ReadsColumn χ fun j => v j * χ.value a) :
    ∃ h h' w, halfStep d lhs rhs x = .ok h ∧ halfStep d lhs' rhs' x' = .ok h' ∧
      h.vector.ReadsColumn χ (w : Fin p → Height) ∧
      h'.vector.ReadsColumn χ (fun j => w j * χ.value a) ∧ h.gap = h'.gap := by
  obtain ⟨h, s, fitted, read⟩ := halfStep_reads left.reads right.reads readX
  obtain ⟨h', s', fitted', read'⟩ := halfStep_reads left.scaled right.scaled readX'
  have gaps : Height.gap (fun i j => δ i * G i j)
      (image (fun i j => δ i * F i j) fun j => v j * χ.value a) = Height.gap G (image F v) := by
    rw [Height.image_scaled, Height.gap_scaled factors nonzero]
  -- equal gaps have equal roots
  obtain rfl : s = s' :=
    Height.eq_of_mul_self_eq (read.root.trans (gaps.symm.trans read'.root.symm))
  have vector := read'.vector
  rw [Height.image_scaled, Height.greatest_scaled factors] at vector
  simp only [mul_right_comm _ (χ.value a)] at vector
  refine ⟨h, h', _, fitted, fitted', read.vector, vector, ?_⟩
  rw [← χ.value_eq_iff read.mem read'.mem, read.value, read'.value, gaps]

theorem alternation_scaled {A A' B B' x x' : Matrix ExtendedRational}
    {F : Fin m → Fin n → Height} {G : Fin m → Fin p → Height} {v : Fin n → Height}
    (left : ScalesRows χ δ F A A') (right : ScalesRows χ δ G B B')
    (readX : x.ReadsColumn χ v) (readX' : x'.ReadsColumn χ fun j => v j * χ.value a) (k : Nat) :
    Outcome.Alike Eq (Leg.Alike (IsMultiple χ a) Eq) (alternation d A B x k)
      (alternation d A' B' x' k) := by
  -- the sides take turns, so that the sizes of the vectors change with every leg
  induction k generalizing n p A A' B B' x x' F G v with
  | zero =>
    obtain ⟨h, h', w, fitted, fitted', read, read', gaps⟩ :=
      halfStep_scaled factors nonzero left right readX readX'
    rw [alternation_zero fitted, alternation_zero fitted']
    exact .ok ⟨⟨⟨p, w, read, read'⟩, gaps⟩, n, v, readX, readX'⟩
  | succ k ih =>
    obtain ⟨h, h', w, fitted, fitted', read, read', -⟩ :=
      halfStep_scaled factors nonzero left right readX readX'
    rw [alternation_succ fitted, alternation_succ fitted']
    exact ih right left read read'

end HalfStep

/-! ### Runs -/

/-- The checks only look at shapes, and whether all cells are elements. -/
theorem Settings.check_alike {A B x A' B' x' : Matrix ExtendedRational} {k l : Nat}
    (left : A.Over d m n) (left' : A'.Over d m n) (right : B.Over d m p) (right' : B'.Over d m p)
    (start : x.Over d k l) (start' : x'.Over d k l) (s : Settings ExtendedRational) :
    Outcome.Alike Eq (fun y y' => x = y ∧ x' = y') ({ s with initial := some x }.check d A B)
      ({ s with initial := some x' }.check d A' B') := by
  have rows : A.rows = B.rows := left.rows.trans right.rows.symm
  have rows' : A'.rows = B'.rows := left'.rows.trans right'.rows.symm
  have valid {M : Matrix ExtendedRational} {i j : Nat} (sized : M.Over d i j) :
      M.validate d = .ok () ∧ M.checked d = .ok M :=
    ⟨(validate_eq_ok_iff d).mpr sized.elements, (checked_eq_ok_iff d).mpr ⟨sized.elements, rfl⟩⟩
  simp only [check, startingVector, (valid left).1, (valid left').1, (valid right).1,
    (valid right').1, (valid start).2, (valid start').2, left.shape, left'.shape, right.shape,
    right'.shape, start.shape, start'.shape, left.cols, left'.cols]
  refine (Outcome.Alike.of_require (iff_of_true rows rows') rfl).bind fun _ => ?_
  refine (Outcome.Alike.of_require Iff.rfl rfl).bind fun _ => ?_
  refine (Outcome.Alike.of_require Iff.rfl rfl).bind fun _ => ?_
  exact (Outcome.Alike.of_require Iff.rfl rfl).bind fun _ => .ok ⟨rfl, rfl⟩

theorem solve_alike_of_scalesRows {A A' B B' x x' : Matrix ExtendedRational}
    {F : Fin m → Fin n → Height} {G : Fin m → Fin p → Height} (factors : ∀ i, δ i ≠ 0)
    (left : ScalesRows χ δ F A A') (right : ScalesRows χ δ G B B') (start : ∀ c ∈ x.toList, c ∈ d)
    (member : a ∈ d) (nonzero : a ≠ d.zero) (scaled : x.scale d a = .ok x')
    (s : Settings ExtendedRational) :
    Outcome.Alike Eq (Solution.Alike (fun v v' => v.scale d a = .ok v') Eq)
      ({ s with initial := some x }.solve d A B) ({ s with initial := some x' }.solve d A' B') := by
  have value : χ.value a ≠ 0 := mt (χ.value_eq_zero_iff member).mp nonzero
  obtain ⟨H, readX⟩ := exists_reads χ.toValuation start rfl rfl
  obtain ⟨y, again, readX'⟩ := readX.scale member
  obtain rfl : x' = y := Except.ok.inj (scaled.symm.trans again)
  have checks := Settings.check_alike left.reads.toOver left.scaled.toOver right.reads.toOver
    right.scaled.toOver readX.toOver readX'.toOver s
  cases checked : Settings.check { s with initial := some x } d A B with
  | error cause =>
    obtain ⟨_, failed, rfl⟩ := checks.exists_error checked
    rw [Settings.solve, Settings.solve, checked, failed]
    exact .error rfl
  | ok z =>
    obtain ⟨_, checked', rfl, rfl⟩ := checks.exists_ok checked
    -- an accepted vector is a column of the length that the half-steps need
    obtain ⟨operands, -⟩ := (Settings.check_eq_ok_iff rfl).mp checked
    obtain ⟨v, readV⟩ := exists_readsColumn χ start (left.reads.cols ▸ operands.shape)
    obtain ⟨_, again, readV'⟩ := readV.scale member
    obtain rfl := Except.ok.inj (scaled.symm.trans again)
    obtain ⟨c, rfl, -⟩ := χ.exists_rational member value
    have lock : Lockstep (IsMultiple χ (rational c)) Eq Eq d d s.tolerance A B x A' B' x' :=
      { start := ⟨n, v, readV, readV'⟩
        legs := alternation_scaled factors value left right readV readV'
        closed := fun gaps => by rw [gaps]
        seen := fun left right => left.approxEq right s.tolerance }
    refine (lock.solve checked checked' rfl rfl rfl).mono id fun alike => ?_
    exact { alike with theta := alike.theta.scale member, sigma := alike.sigma.scale member }

/-- Factors of the rows do not change a run, and a factor of the starting vector is one of the
vectors that it ends with. -/
theorem solve_scaled (exact : d.IsExact) {A B x : Matrix ExtendedRational} (rows : A.rows = B.rows)
    (left : ∀ c ∈ A.toList, c ∈ d) (right : ∀ c ∈ B.toList, c ∈ d) (start : ∀ c ∈ x.toList, c ∈ d)
    {factors : List ExtendedRational} (length : factors.length = A.rows)
    (nonzero : ∀ c ∈ factors, c ∈ d ∧ c ≠ d.zero) (member : a ∈ d) (scalar : a ≠ d.zero)
    (s : Settings ExtendedRational) :
    ∃ D A' B' x', ofDiagonal d factors = .ok D ∧ D.mul d A = .ok A' ∧ D.mul d B = .ok B' ∧
      x.scale d a = .ok x' ∧
      Outcome.Alike Eq (Solution.Alike (fun v v' => v.scale d a = .ok v') Eq)
        ({ s with initial := some x }.solve d A B)
        ({ s with initial := some x' }.solve d A' B') := by
  obtain ⟨χ⟩ := Dioid.Chart.nonempty exact
  have factor (i : Fin factors.length) : χ.value factors[i] ≠ 0 := by
    obtain ⟨inside, nonzero⟩ := nonzero factors[i] (List.getElem_mem _)
    exact mt (χ.value_eq_zero_iff inside).mp nonzero
  obtain ⟨D, built⟩ := exists_ofDiagonal_iff.mpr
    ⟨List.ne_nil_of_length_pos (length ▸ A.rows_pos), fun c hc => (nonzero c hc).1⟩
  have diagonal := isDiagonal_of_ofDiagonal built
  obtain ⟨F, readA⟩ := exists_reads χ.toValuation left length.symm rfl
  obtain ⟨G, readB⟩ := exists_reads χ.toValuation right (rows.symm.trans length.symm) rfl
  obtain ⟨A', multiplied, scalesA⟩ := diagonal.scalesRows readA
  obtain ⟨B', multiplied', scalesB⟩ := diagonal.scalesRows readB
  obtain ⟨H, readX⟩ := exists_reads χ.toValuation start rfl rfl
  obtain ⟨x', scaled, -⟩ := readX.scale member
  exact ⟨D, A', B', x', built, multiplied, multiplied', scaled,
    solve_alike_of_scalesRows factor scalesA scalesB start member scalar scaled s⟩

def weights : List ExtendedRational := [rational 1, rational (-2), rational (1 / 2)]

theorem solve_scaled_ascent :
    ∃ D A' B' x', ofDiagonal .maxPlus weights = .ok D ∧ D.mul .maxPlus (ascent 2) = .ok A' ∧
      D.mul .maxPlus (descent 3) = .ok B' ∧ steps.scale .maxPlus (rational 7) = .ok x' ∧
      { patient with initial := some x' }.solve .maxPlus A' B' =
        .ok ⟨triple 10 13 12, pair 11 12, rational 0, 2, .converged⟩ := by
  have operands : Operands .maxPlus (ascent 2) (descent 3) steps :=
    ⟨rfl, rfl, by decide, by decide, by decide⟩
  have nonzero : ∀ c ∈ weights, c ∈ Dioid.maxPlus ∧ c ≠ Dioid.maxPlus.zero := by decide +kernel
  have seven : rational 7 ∈ Dioid.maxPlus := by decide
  obtain ⟨D, A', B', x', built, left, right, start, alike⟩ :=
    solve_scaled .maxPlus operands.rows operands.left operands.right operands.start rfl nonzero
      seven nofun patient
  have returned : patient.solve .maxPlus (ascent 2) (descent 3) = .ok meeting := by decide +kernel
  obtain ⟨⟨theta, sigma, gap, iterations, termination⟩, solved, related⟩ := alike.exists_ok returned
  have thetas : meeting.theta.scale .maxPlus (rational 7) = .ok (triple 10 13 12) := by
    decide +kernel
  have sigmas : meeting.sigma.scale .maxPlus (rational 7) = .ok (pair 11 12) := by decide +kernel
  obtain rfl : triple 10 13 12 = theta := Except.ok.inj (thetas.symm.trans related.theta)
  obtain rfl : pair 11 12 = sigma := Except.ok.inj (sigmas.symm.trans related.sigma)
  obtain rfl : rational 0 = gap := related.gap
  obtain rfl : 2 = iterations := related.iterations
  obtain rfl : .converged = termination := related.termination
  exact ⟨D, A', B', x', built, left, right, start, solved⟩

end TwoSided

end TropicalAlgebra
