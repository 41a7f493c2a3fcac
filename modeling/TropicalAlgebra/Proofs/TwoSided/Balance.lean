import TropicalAlgebra.Proofs.Matrix.Distance
import TropicalAlgebra.Proofs.TwoSided.HalfStep
import TropicalAlgebra.Proofs.TwoSided.Run

/-!
# Balanced solutions

Over an exact dioid and with matrices in which no row is zero, every half-step leaves a distance of
half its gap between the two sides, and the gaps never grow. Whatever ends the iteration, its
solution shows the distance that its gap says.
-/

namespace TropicalAlgebra

namespace TwoSided

open TropicalAlgebra.Height (image greatest Balanced)

variable {d : Dioid ExtendedRational} {χ : d.Chart} {m n p : Nat}

/-- The vectors of the solution that ends with leg `k` balance both sides up to the gap. -/
def Leg.Balances (χ : d.Chart) (F : Fin m → Fin n → Height) (G : Fin m → Fin p → Height) (k : Nat)
    (leg : Leg ExtendedRational) : Prop :=
  ∃ θ σ, (leg.theta k).ReadsColumn χ θ ∧ (leg.sigma k).ReadsColumn χ σ ∧ leg.gap ∈ d ∧
    Balanced (image F θ) (image G σ) (χ.value leg.gap)

theorem Leg.Balances.succ {F : Fin m → Fin n → Height} {G : Fin m → Fin p → Height} {k : Nat}
    {leg : Leg ExtendedRational} (balances : leg.Balances χ G F k) :
    leg.Balances χ F G (k + 1) := by
  obtain ⟨θ, σ, readθ, readσ, member, balanced⟩ := balances
  refine ⟨σ, θ, ?_, ?_, member, balanced.symm⟩
  · rwa [Leg.theta_succ]
  · rwa [Leg.sigma_succ]

/-- What the two sides of a balanced leg look like, and how far they are apart. -/
theorem Leg.Balances.distance {A B : Matrix ExtendedRational} {F : Fin m → Fin n → Height}
    {G : Fin m → Fin p → Height} {k : Nat} {leg : Leg ExtendedRational}
    (balances : leg.Balances χ F G k) (pos : 0 < m) (readA : A.Reads χ.toValuation F)
    (readB : B.Reads χ.toValuation G) :
    ∃ a b δ, A.mul d (leg.theta k) = .ok (.ofRationals pos a) ∧
      B.mul d (leg.sigma k) = .ok (.ofRationals pos b) ∧ leg.gap = .rational δ ∧
      IsGreatest (Set.range fun i => |a i - b i|) (|δ| / 2) := by
  obtain ⟨θ, σ, readθ, readσ, member, balanced⟩ := balances
  obtain ⟨_, multiplied, readL⟩ := readA.mulColumn readθ
  obtain ⟨_, multiplied', readR⟩ := readB.mulColumn readσ
  obtain ⟨a, b, δ, rfl, rfl, gap, distance⟩ := readL.isGreatest readR pos member balanced
  exact ⟨a, b, δ, multiplied, multiplied', gap, distance⟩

/-- Every leg of the alternation is balanced, and the gap of the next one is no larger. The sides
change places from leg to leg, so that the induction takes one leg off the front. -/
theorem alternation_balances {A B x : Matrix ExtendedRational} {F : Fin m → Fin n → Height}
    {G : Fin m → Fin p → Height} {v : Fin n → Height} (pos : 0 < m)
    (readA : A.Reads χ.toValuation F) (readB : B.Reads χ.toValuation G)
    (rowF : ∀ i, ∃ j, F i j ≠ 0) (rowG : ∀ i, ∃ j, G i j ≠ 0) (readX : x.ReadsColumn χ v)
    (start : ∀ i, image F v i ≠ 0) (k : Nat) :
    ∃ leg next, alternation d A B x k = .ok leg ∧ alternation d A B x (k + 1) = .ok next ∧
      leg.Balances χ F G k ∧ next.gap ∈ d ∧ χ.value next.gap ≤ χ.value leg.gap := by
  induction k generalizing n p A B F G x v with
  | zero =>
    -- the vector that was held fixed is a candidate for the next half-step
    obtain ⟨h, s, fitted, read⟩ := halfStep_reads readA readB readX
    obtain ⟨h', s', fitted', read'⟩ := halfStep_reads readB readA read.vector
    have balanced := Height.balanced_image_centred pos start rowG read.root
    refine ⟨_, _, alternation_zero fitted,
      (alternation_succ fitted 0).trans (alternation_zero fitted'), ?_, read'.mem, ?_⟩
    · refine ⟨v, _, readX, read.vector, read.mem, ?_⟩
      rw [read.value]
      exact balanced
    · rw [read.value, read'.value]
      exact balanced.gap_le
  | succ k ih =>
    -- the fitted side has no zero either, so it can be held fixed in its turn
    obtain ⟨h, s, fitted, read⟩ := halfStep_reads readA readB readX
    have balanced := Height.balanced_image_centred pos start rowG read.root
    obtain ⟨leg, next, reached, reached', balances, member, less⟩ :=
      ih readB readA rowG rowF read.vector balanced.right_ne_zero
    refine ⟨leg, next, ?_, ?_, balances.succ, member, less⟩
    · rwa [alternation_succ fitted]
    · rwa [alternation_succ fitted]

theorem Settings.acceptsTolerance_of_nonneg {s : Settings ExtendedRational} {q : Rat}
    (given : s.tolerance = .rational q) (nonneg : 0 ≤ q) : s.acceptsTolerance = true := by
  rw [acceptsTolerance, Bool.and_eq_true, decide_eq_true_iff, given]
  exact ⟨(ExtendedRational.rational_le_iff _ _).mpr nonneg, ExtendedRational.isFinite_rational q⟩

/-- A run on operands that it accepts ends with vectors that balance both sides up to the gap,
whatever ends it. -/
theorem Settings.exists_solve_balances {s : Settings ExtendedRational}
    {A B x : Matrix ExtendedRational} {F : Fin m → Fin n → Height} {G : Fin m → Fin p → Height}
    {v : Fin n → Height} (accepted : s.check d A B = .ok x) (pos : 0 < m)
    (readA : A.Reads χ.toValuation F) (readB : B.Reads χ.toValuation G)
    (rowF : ∀ i, ∃ j, F i j ≠ 0) (rowG : ∀ i, ∃ j, G i j ≠ 0) (readX : x.ReadsColumn χ v)
    (start : ∀ i, image F v i ≠ 0) :
    ∃ sol θ σ, s.solve d A B = .ok sol ∧ sol.theta.ReadsColumn χ θ ∧ sol.sigma.ReadsColumn χ σ ∧
      sol.gap ∈ d ∧ Balanced (image F θ) (image G σ) (χ.value sol.gap) := by
  have legs := alternation_balances pos readA readB rowF rowG readX start
  obtain ⟨sol, iterated⟩ := exists_iterate_eq_ok s.tolerance (s.maxIterations - 1) ⟨x, [], [], 0⟩
    fun k => (legs k).imp fun _ ⟨_, reached, _⟩ => reached
  obtain ⟨k, -, leg, reached, ends, -⟩ := iterate_follows iterated
  obtain ⟨leg', _, again, -, ⟨θ, σ, readθ, readσ, member, balanced⟩, -⟩ := legs k
  obtain rfl : leg = leg' := Except.ok.inj (reached.symm.trans again)
  rw [← ends.theta] at readθ
  rw [← ends.sigma] at readσ
  rw [← ends.gap] at member balanced
  exact ⟨sol, θ, σ, bind_eq_ok_iff.mpr ⟨x, accepted, iterated⟩, readθ, readσ, member, balanced⟩

/-- Operands of one height are accepted without a starting vector, and the run starts from ones. -/
theorem Settings.exists_check_default {A B : Matrix ExtendedRational}
    {F : Fin m → Fin n → Height} {G : Fin m → Fin p → Height} (readA : A.Reads χ.toValuation F)
    (readB : B.Reads χ.toValuation G) :
    ∃ x, ({} : Settings ExtendedRational).check d A B = .ok x ∧ x.ReadsColumn χ fun _ : Fin n => 1 := by
  obtain rfl := readA.cols
  refine ⟨_, check_eq_ok_iff_start.mpr ⟨readA.rows.trans readB.rows.symm, by decide,
    acceptsTolerance_of_nonneg rfl le_rfl, readA.mem_of_mem_toList, readB.mem_of_mem_toList,
    require_bind_eq_ok_iff.mpr ⟨χ.one_mem, Matrix.ones_of_pos d A.cols_pos⟩⟩, ?_⟩
  exact Matrix.reads_ofFn (fun _ _ => χ.one_mem) fun _ _ => χ.value_one

/-- Operands in which neither a row nor an entry of the first image is zero. -/
structure ZeroFree (d : Dioid ExtendedRational) (A B x : Matrix ExtendedRational) : Prop
    extends Operands d A B x where
  row_left : ∀ i, ∃ j, A.cell i j ≠ d.zero
  row_right : ∀ i, ∃ j, B.cell i j ≠ d.zero
  image : ∀ b, A.mul d x = .ok b → ∀ a ∈ b.toList, a ≠ d.zero

theorem Operands.exists_reads (χ : d.Chart) {A B x : Matrix ExtendedRational}
    (operands : Operands d A B x) :
    ∃ (F : Fin A.rows → Fin A.cols → Height) (G : Fin A.rows → Fin B.cols → Height)
      (v : Fin A.cols → Height), A.Reads χ.toValuation F ∧ B.Reads χ.toValuation G ∧
      x.ReadsColumn χ v := by
  obtain ⟨rows, shape, left, right, start⟩ := operands
  obtain ⟨F, readA⟩ := Matrix.exists_reads χ.toValuation left rfl rfl
  obtain ⟨G, readB⟩ := Matrix.exists_reads χ.toValuation right rows.symm rfl
  obtain ⟨v, readX⟩ := Matrix.exists_readsColumn χ start shape
  exact ⟨F, G, v, readA, readB, readX⟩

theorem ZeroFree.ne_zero {A B x : Matrix ExtendedRational} {F : Fin m → Fin n → Height}
    {G : Fin m → Fin p → Height} {v : Fin n → Height} (operands : ZeroFree d A B x)
    (readA : A.Reads χ.toValuation F) (readB : B.Reads χ.toValuation G)
    (readX : x.ReadsColumn χ v) :
    (∀ i, ∃ j, F i j ≠ 0) ∧ (∀ i, ∃ j, G i j ≠ 0) ∧ ∀ i, Height.image F v i ≠ 0 := by
  obtain ⟨b, reached, readb⟩ := readA.mulColumn readX
  exact ⟨readA.row_ne_zero operands.row_left, readB.row_ne_zero operands.row_right,
    readb.ne_zero (operands.image b reached)⟩

/-- Over an exact dioid, zero-free operands are solved whatever the settings. Along the run no gap
is less than one and none is larger than the one before, and both sides of the solution are at a
largest distance of half its gap. -/
theorem solve_balanced (exact : d.IsExact) {A B x : Matrix ExtendedRational}
    (operands : ZeroFree d A B x) {s : Settings ExtendedRational} {tolerance : Rat}
    (initial : s.initial = some x) (rounds : s.maxIterations ≠ 0)
    (accepts : s.tolerance = .rational tolerance) (nonneg : 0 ≤ tolerance) :
    (∀ k, ∃ leg next, alternation d A B x k = .ok leg ∧ alternation d A B x (k + 1) = .ok next ∧
      (leg.gap = d.one ∨ d.dominates leg.gap d.one = true) ∧
      d.dominates next.gap leg.gap = false) ∧
    ∃ sol, s.solve d A B = .ok sol ∧
      (∃ k leg, k < 2 * s.maxIterations ∧ alternation d A B x k = .ok leg ∧ leg.Ends k 0 sol) ∧
      ∃ a b δ, A.mul d sol.theta = .ok (.ofRationals A.rows_pos a) ∧
        B.mul d sol.sigma = .ok (.ofRationals A.rows_pos b) ∧ sol.gap = .rational δ ∧
        IsGreatest (Set.range fun i => |a i - b i|) (|δ| / 2) := by
  obtain ⟨χ⟩ := Dioid.Chart.nonempty exact
  obtain ⟨F, G, v, readA, readB, readX⟩ := operands.exists_reads χ
  obtain ⟨rowF, rowG, start⟩ := operands.ne_zero readA readB readX
  have legs := alternation_balances A.rows_pos readA readB rowF rowG readX start
  constructor
  · intro k
    obtain ⟨leg, next, reached, reached', balances, member', less⟩ := legs k
    obtain ⟨_, _, _, _, member, balanced⟩ := balances
    refine ⟨leg, next, reached, reached', ?_, ?_⟩
    · rw [χ.dominates_iff_lt member χ.one_mem, ← χ.value_eq_iff member χ.one_mem, χ.value_one,
        eq_comm, ← le_iff_eq_or_lt]
      exact balanced.one_le
    · rw [← Bool.not_eq_true, χ.dominates_iff_lt member' member, not_lt]
      exact less
  · have accepted := Settings.acceptsTolerance_of_nonneg accepts nonneg
    obtain ⟨sol, iterated⟩ := exists_iterate_eq_ok s.tolerance (s.maxIterations - 1) ⟨x, [], [], 0⟩
      fun k => (legs k).imp fun _ ⟨_, reached, _⟩ => reached
    have returned := (Settings.solve_eq_ok_iff initial).mpr
      ⟨⟨operands.toOperands, rounds, accepted⟩, iterated⟩
    obtain ⟨k, early, leg, reached, ends, -⟩ := iterate_follows iterated
    refine ⟨sol, returned, ⟨k, leg, by omega, reached, ends⟩, ?_⟩
    -- the leg that the run ended with is the balanced one with its number
    obtain ⟨leg', _, again, _, balances, _⟩ := legs k
    obtain rfl : leg = leg' := Except.ok.inj (reached.symm.trans again)
    rw [ends.theta, ends.sigma, ends.gap]
    exact balances.distance A.rows_pos readA readB

/-! ### A run of one round -/

def origin : Matrix ExtendedRational := .singleton (.rational 0)

def level : Matrix ExtendedRational := .ofRationals Nat.two_pos fun _ => 0

def slope : Matrix ExtendedRational := .ofRationals Nat.two_pos fun i => (i : Rat)

def oneRound : Settings ExtendedRational := { initial := some origin, maxIterations := 1 }

theorem zeroFree_slope_level : ZeroFree .maxPlus slope level origin where
  rows := rfl
  shape := rfl
  left := by decide
  right := by decide
  start := by decide
  row_left := by decide
  row_right := by decide
  image := by
    have product : slope.mul .maxPlus origin = .ok slope := by decide +kernel
    rw [product]
    rintro b ⟨⟩
    decide

theorem solve_balanced_slope_level :
    ∃ sol, oneRound.solve .maxPlus slope level = .ok sol ∧
      ∃ a b δ, slope.mul .maxPlus sol.theta = .ok (.ofRationals Nat.two_pos a) ∧
        level.mul .maxPlus sol.sigma = .ok (.ofRationals Nat.two_pos b) ∧ sol.gap = .rational δ ∧
        IsGreatest (Set.range fun i => |a i - b i|) (|δ| / 2) := by
  obtain ⟨-, sol, returned, -, distance⟩ :=
    solve_balanced .maxPlus zeroFree_slope_level (s := oneRound) rfl Nat.one_ne_zero rfl le_rfl
  exact ⟨sol, returned, distance⟩

end TwoSided

end TropicalAlgebra
