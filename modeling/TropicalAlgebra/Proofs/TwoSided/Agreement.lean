import TropicalAlgebra.Proofs.TwoSided.Balance

/-!
# Agreement of both sides

What a gap of one says when rows may be zero. The gap leaves out the rows in which one side is zero,
so both sides are the same only if they are zero in the same rows.
-/

namespace TropicalAlgebra

namespace TwoSided

open TropicalAlgebra.Height (image greatest)

variable {d : Dioid ExtendedRational} {χ : d.Chart} {m n p : Nat}

/-- If there is no gap, then the vectors of leg `k` bring both sides together wherever neither side
is zero. -/
def Leg.Agrees (χ : d.Chart) (F : Fin m → Fin n → Height) (G : Fin m → Fin p → Height) (k : Nat)
    (leg : Leg ExtendedRational) : Prop :=
  ∃ θ σ, (leg.theta k).ReadsColumn χ θ ∧ (leg.sigma k).ReadsColumn χ σ ∧ leg.gap ∈ d ∧
    (χ.value leg.gap = 1 →
      ∀ i, image F θ i ≠ 0 → image G σ i ≠ 0 → image F θ i = image G σ i)

theorem Leg.Agrees.succ {F : Fin m → Fin n → Height} {G : Fin m → Fin p → Height} {k : Nat}
    {leg : Leg ExtendedRational} (agrees : leg.Agrees χ G F k) : leg.Agrees χ F G (k + 1) := by
  obtain ⟨θ, σ, readθ, readσ, member, agree⟩ := agrees
  refine ⟨σ, θ, ?_, ?_, member, ?_⟩
  · rwa [Leg.theta_succ]
  · rwa [Leg.sigma_succ]
  · intro settled i left right
    exact (agree settled i right left).symm

theorem HalfStep.Reads.agrees {h : HalfStep ExtendedRational} {F : Fin m → Fin n → Height}
    {G : Fin m → Fin p → Height} {x : Matrix ExtendedRational} {v : Fin n → Height} {s : Height}
    (readX : x.ReadsColumn χ v) (read : h.Reads χ G (image F v) s) :
    Leg.Agrees χ F G 0 ⟨h, x⟩ := by
  refine ⟨v, _, readX, read.vector, read.mem, ?_⟩
  intro settled i left right
  -- without a gap the greatest vector is not moved
  have root : s * s = 1 * 1 := by rw [read.root, ← read.value, settled, mul_one]
  have unit := Height.eq_of_mul_self_eq root
  have small : Height.gap G (image F v) ≤ 1 := (read.value.symm.trans settled).le
  simp only [unit, mul_one] at right ⊢
  exact (Height.image_greatest_eq_of_gap_le_one small left right).symm

theorem alternation_agrees {A B x : Matrix ExtendedRational} {F : Fin m → Fin n → Height}
    {G : Fin m → Fin p → Height} {v : Fin n → Height} (readA : A.Reads χ.toValuation F)
    (readB : B.Reads χ.toValuation G) (readX : x.ReadsColumn χ v) (k : Nat) :
    ∃ leg, alternation d A B x k = .ok leg ∧ leg.Agrees χ F G k := by
  induction k generalizing n p A B F G x v with
  | zero =>
    obtain ⟨h, s, fitted, read⟩ := halfStep_reads readA readB readX
    exact ⟨_, alternation_zero fitted, read.agrees readX⟩
  | succ k ih =>
    obtain ⟨h, s, fitted, read⟩ := halfStep_reads readA readB readX
    obtain ⟨leg, reached, agrees⟩ := ih readB readA read.vector
    refine ⟨leg, ?_, agrees.succ⟩
    rwa [alternation_succ fitted]

section Columns

variable {L R : Matrix ExtendedRational} {f g : Fin m → Height}

private theorem cells_agree (readL : L.ReadsColumn χ f) (readR : R.ReadsColumn χ g)
    (agree : ∀ i, f i ≠ 0 → g i ≠ 0 → f i = g i) {i j : Nat} {a b : ExtendedRational}
    (left : L.get? i j = some a) (right : R.get? i j = some b) (ha : a ≠ d.zero)
    (hb : b ≠ d.zero) : a = b := by
  obtain ⟨hi, _, memberA, valueA⟩ := readL.of_get? left
  obtain ⟨_, _, memberB, valueB⟩ := readR.of_get? right
  rw [Ne, ← χ.value_eq_zero_iff memberA, valueA] at ha
  rw [Ne, ← χ.value_eq_zero_iff memberB, valueB] at hb
  rw [← χ.value_eq_iff memberA memberB, valueA, valueB]
  exact agree ⟨i, hi⟩ ha hb

private theorem eq_iff_zeros_eq (readL : L.ReadsColumn χ f) (readR : R.ReadsColumn χ g)
    (agree : ∀ i, f i ≠ 0 → g i ≠ 0 → f i = g i) :
    L = R ↔ L.map d.isZero = R.map d.isZero := by
  constructor
  · rintro rfl
    rfl
  · intro zeros
    apply Matrix.ext_get?
    intro i j
    -- position by position: both cells are zero, or neither is and they agree
    have cell := congrArg (fun M => M.get? i j) zeros
    simp only [Matrix.get?_map] at cell
    cases left : L.get? i j with
    | none =>
      rw [left, Option.map_none, eq_comm, Option.map_eq_none_iff] at cell
      exact cell.symm
    | some a =>
      rw [left, Option.map_some, eq_comm, Option.map_eq_some_iff] at cell
      obtain ⟨b, right, same⟩ := cell
      rw [right]
      by_cases empty : a = d.zero
      · rw [(Dioid.Chart.isZero_iff_eq a).mpr empty, Dioid.Chart.isZero_iff_eq] at same
        rw [empty, same]
      · have nonzero : b ≠ d.zero := by
          rwa [Ne, ← Dioid.Chart.isZero_iff_eq, same, Dioid.Chart.isZero_iff_eq]
        rw [cells_agree readL readR agree left right empty nonzero]

end Columns

/-- When a run without tolerance converges, both sides agree in all cells in which neither is zero.
They are equal exactly if they are zero in the same rows, and always if the operands are
zero-free. -/
theorem solve_converged_agrees (exact : d.IsExact) {A B x : Matrix ExtendedRational}
    {s : Settings ExtendedRational} {sol : Solution ExtendedRational}
    (initial : s.initial = some x) (accepts : s.tolerance = .rational 0)
    (returned : s.solve d A B = .ok sol) (converged : sol.termination = .converged) :
    ∃ L R, A.mul d sol.theta = .ok L ∧ B.mul d sol.sigma = .ok R ∧
      (∀ i j a b, L.get? i j = some a → R.get? i j = some b → a ≠ d.zero → b ≠ d.zero → a = b) ∧
      (L = R ↔ L.map d.isZero = R.map d.isZero) ∧ (ZeroFree d A B x → L = R) := by
  obtain ⟨χ⟩ := Dioid.Chart.nonempty exact
  obtain ⟨⟨operands, -, -⟩, iterated⟩ := (Settings.solve_eq_ok_iff initial).mp returned
  obtain ⟨F, G, v, readA, readB, readX⟩ := operands.exists_reads χ
  obtain ⟨k, -, leg, reached, ends, close⟩ := iterate_follows iterated
  obtain ⟨leg', again, θ, σ, readθ, readσ, member, agree⟩ :=
    alternation_agrees readA readB readX k
  obtain rfl : leg = leg' := Except.ok.inj (reached.symm.trans again)
  -- a tolerance of zero accepts no gap but one
  have settled : χ.value leg.gap = 1 := by
    have small := close converged
    rw [accepts, χ.one_eq, ExtendedRational.approxEq_zero_iff] at small
    rw [small, ← χ.one_eq, χ.value_one]
  obtain ⟨L, multiplied, readL⟩ := readA.mulColumn readθ
  obtain ⟨R, multiplied', readR⟩ := readB.mulColumn readσ
  rw [ends.theta, ends.sigma]
  refine ⟨L, R, multiplied, multiplied', fun _ _ _ _ => cells_agree readL readR (agree settled),
    eq_iff_zeros_eq readL readR (agree settled), fun zeroFree => ?_⟩
  -- zero-free operands keep both sides free of zeros, so they agree everywhere
  obtain ⟨rowF, rowG, start⟩ := zeroFree.ne_zero readA readB readX
  obtain ⟨leg', _, again', _, ⟨θ', σ', readθ', readσ', _, balanced⟩, _⟩ :=
    alternation_balances A.rows_pos readA readB rowF rowG readX start k
  obtain rfl : leg = leg' := Except.ok.inj (reached.symm.trans again')
  obtain rfl := readθ.unique readθ'
  obtain rfl := readσ.unique readσ'
  have images : image F θ = image G σ := funext fun i =>
    agree settled i (balanced.left_ne_zero i) (balanced.right_ne_zero i)
  exact readL.ext (images ▸ readR)

def halfEmpty : Matrix ExtendedRational :=
  .ofFn 2 1 Nat.two_pos Nat.one_pos fun i _ => if i = 0 then .negInfinity else .rational 0

def settled : Solution ExtendedRational := ⟨origin, origin, .rational 0, 1, .converged⟩

theorem solve_converged_agrees_slope :
    oneRound.solve .maxPlus slope slope = .ok settled ∧
      ∃ L, slope.mul .maxPlus settled.theta = .ok L ∧ slope.mul .maxPlus settled.sigma = .ok L := by
  have returned : oneRound.solve .maxPlus slope slope = .ok settled := by decide +kernel
  have zeroFree : ZeroFree .maxPlus slope slope origin :=
    { zeroFree_slope_level with
      rows := rfl
      right := zeroFree_slope_level.left
      row_right := zeroFree_slope_level.row_left }
  obtain ⟨L, R, left, right, -, -, equal⟩ :=
    solve_converged_agrees .maxPlus (s := oneRound) rfl rfl returned rfl
  obtain rfl := equal zeroFree
  exact ⟨returned, L, left, right⟩

/-- The run converges although the second matrix has no finite entry in its first row. -/
theorem solve_converged_halfEmpty :
    oneRound.solve .maxPlus level halfEmpty = .ok settled ∧
      settled.termination = .converged ∧ level.mul .maxPlus settled.theta = .ok level ∧
      halfEmpty.mul .maxPlus settled.sigma = .ok halfEmpty ∧ level ≠ halfEmpty := by
  decide +kernel

end TwoSided

end TropicalAlgebra
