import TropicalAlgebra.Proofs.Closure.Limit
import TropicalAlgebra.Proofs.Dioid.Order
import TropicalAlgebra.Proofs.Walks.CycleMean

/-!
# The spectral radius as a cycle mean

Over an exact dioid the spectral radius of a matrix is the best mean weight of an edge over the
closed walks of its graph, of whatever length, although only as many powers are formed as there are
vertices.
-/

namespace TropicalAlgebra

namespace ExtendedRational

/-- The `k`-th part of a rational number; an infinity stays as it is. -/
def divNat : ExtendedRational → Nat → ExtendedRational
  | rational q, k => rational (q / k)
  | a, _ => a

end ExtendedRational

open ExtendedRational
open Dioid.Chart (ofMaxPlus)

namespace Dioid.Chart

variable {d : Dioid ExtendedRational} (χ : d.Chart)

include χ in
theorem zero_divNat (k : Nat) : d.zero.divNat k = d.zero := by
  cases zero : d.zero with
  | rational q => exact absurd zero.symm (χ.rational_ne_zero q)
  | negInfinity => rfl
  | infinity => rfl

include χ in
theorem divNat_mem {a : ExtendedRational} (ha : a ∈ d) (k : Nat) : a.divNat k ∈ d := by
  rcases χ.zero_or_rational ha with rfl | ⟨q, rfl⟩
  · rwa [χ.zero_divNat]
  · exact χ.rational_mem _

theorem value_divNat_pow {a : ExtendedRational} (ha : a ∈ d) {k : Nat} (pos : k ≠ 0) :
    χ.value (a.divNat k) ^ k = χ.value a := by
  rcases χ.zero_or_rational ha with rfl | ⟨q, rfl⟩
  · rw [χ.zero_divNat, χ.value_zero, zero_pow pos]
  · have positive : (k : Rat) ≠ 0 := Nat.cast_ne_zero.mpr pos
    rw [divNat, χ.value_rational, χ.value_rational, Height.exp_pow, mul_left_comm,
      mul_div_cancel₀ q positive]

include χ in
theorem meanWeight_eq {w : ExtendedRational × Nat} (member : w.1 ∈ d)
    (nonzero : d.isZero w.1 = false) : d.meanWeight w = .ok (w.1.divNat w.2) := by
  obtain ⟨a, k⟩ := w
  rcases χ.zero_or_rational member with rfl | ⟨q, rfl⟩
  · simp [(isZero_iff_eq d.zero).mpr rfl] at nonzero
  · rw [meanWeight, ofRatio_eq, χ.pow_rational, divNat, Int.cast_one, one_mul, div_eq_mul_inv]

end Dioid.Chart

/-! ### The radius of the stored powers -/

namespace Powers

variable {d : Dioid ExtendedRational} {χ : d.Chart} {n : Nat} {F : WeightMatrix n Height}

/-- The height of the mean weight of an edge on the best closed walk with `k + 1` edges. -/
def meanHeight (χ : d.Chart) (P : Powers ExtendedRational) (k : Nat) : Height :=
  χ.value (((P.traces d).getD k d.zero).divNat (k + 1))

variable {P : Powers ExtendedRational}

theorem Reads.means (read : P.Reads χ.toValuation F n) : F.Means (P.meanHeight χ) := by
  intro k less
  have bound : k < (P.traces d).length := by rwa [read.length_traces]
  obtain ⟨member, value⟩ := read.traces k bound
  have entry : (P.traces d).getD k d.zero = (P.traces d)[k] := by simp [bound]
  rw [meanHeight, entry, χ.value_divNat_pow member (Nat.succ_ne_zero k), value]

theorem Reads.mapM_meanWeight (read : P.Reads χ.toValuation F n) :
    (P.cycleWeights d).mapM d.meanWeight =
      .ok ((P.cycleWeights d).map fun w => w.1.divNat w.2) := by
  refine mapM_eq_ok_map fun w hw => ?_
  obtain ⟨listed, nonzero⟩ := List.mem_filter.mp hw
  refine χ.meanWeight_eq (read.mem_of_mem_traces _ (List.fst_mem_of_mem_zipIdx listed)) ?_
  simpa using nonzero

/-- The sum of the means skips the traces that are zero, which makes no difference. -/
theorem Reads.value_sum_means (read : P.Reads χ.toValuation F n) :
    d.sum ((P.cycleWeights d).map fun w => w.1.divNat w.2) ∈ d ∧
    χ.value (d.sum ((P.cycleWeights d).map fun w => w.1.divNat w.2)) =
      WeightMatrix.bestMean n (P.meanHeight χ) := by
  have members : ∀ a ∈ (P.cycleWeights d).map fun w => w.1.divNat w.2, a ∈ d := by
    intro a ha
    obtain ⟨w, hw, rfl⟩ := List.mem_map.mp ha
    have listed := List.fst_mem_of_mem_zipIdx (List.mem_of_mem_filter hw)
    exact χ.divNat_mem (read.mem_of_mem_traces _ listed) _
  refine ⟨χ.sum_mem members, ?_⟩
  rw [χ.value_sum members, List.map_map, cycleWeights, Dioid.Valuation.sum_map_filter]
  · rw [WeightMatrix.bestMean, Finset.sum_range, ← List.sum_ofFn]
    congr 1
    apply List.ext_getElem
    · simp [read.length_traces]
    · intro k hk hk'
      have bound : k < (P.traces d).length := by simpa using hk
      simp [meanHeight, bound, Nat.add_comm 1 k]
  · intro w _ skipped
    rw [Bool.not_eq_false', Dioid.Chart.isZero_iff_eq] at skipped
    rw [Function.comp_apply, skipped, χ.zero_divNat, χ.value_zero]

end Powers

namespace Matrix

variable {d : Dioid ExtendedRational} {χ : d.Chart} {n : Nat} {F : WeightMatrix n Height}

theorem reads_spectralRadius {M : Matrix ExtendedRational} (read : M.Reads χ.toValuation F) :
    ∃ radius ρ, M.spectralRadius d = .ok radius ∧ radius ∈ d ∧ F.Means ρ ∧
      χ.value radius = WeightMatrix.bestMean n ρ := by
  have pos : n ≠ 0 := by
    have := M.rows_pos
    rw [read.rows] at this
    omega
  obtain ⟨P, powers, readP, _⟩ := Powers.reads_powers read pos false
  rw [← read.rows] at powers
  obtain ⟨member, value⟩ := readP.value_sum_means
  refine ⟨_, P.meanHeight χ, ?_, member, readP.means, value⟩
  simp [spectralRadius, powers, readP.mapM_meanWeight, bind, Except.bind, pure, Except.pure]

/-! ### Closed walks -/

variable {α : Type}

/-- The product of the cells along the first `k` edges of a walk. -/
def walkWeight (d : Dioid α) (M : Matrix α) (square : M.rows = M.cols) (v : Nat → Fin M.rows) :
    Nat → α
  | 0 => d.one
  | k + 1 => d.mul (walkWeight d M square v k) (M.cell (v k) ((v (k + 1)).cast square))

/-- A walk in the graph of a matrix that has at least one edge and ends where it began. -/
structure ClosedWalk (M : Matrix α) where
  vertex : Nat → Fin M.rows
  length : Nat
  length_pos : 0 < length
  closes : vertex length = vertex 0

def ClosedWalk.weight {M : Matrix α} (c : M.ClosedWalk) (d : Dioid α) (square : M.rows = M.cols) :
    α :=
  walkWeight d M square c.vertex c.length

theorem Reads.walkWeight {M : Matrix ExtendedRational} {F : WeightMatrix M.rows Height}
    (read : M.Reads χ.toValuation F) (square : M.rows = M.cols) (v : Nat → Fin M.rows) (k : Nat) :
    M.walkWeight d square v k ∈ d ∧
    χ.value (M.walkWeight d square v k) = WeightMatrix.weight F v 0 k := by
  induction k with
  | zero => exact ⟨χ.one_mem, χ.value_one⟩
  | succ k ih =>
    obtain ⟨member, value⟩ := ih
    have edge := read.mem (v k) ((v (k + 1)).cast square)
    refine ⟨χ.mul_mem member edge, ?_⟩
    rw [WeightMatrix.weight_add, Matrix.walkWeight, χ.value_mul member edge, value,
      read.value_cell]
    simp [WeightMatrix.weight]

section Means

variable {M : Matrix ExtendedRational} {F : WeightMatrix M.rows Height} {ρ : Nat → Height}
variable (read : M.Reads χ.toValuation F) (square : M.rows = M.cols) (means : F.Means ρ)

include read means

private theorem value_weight_le (c : M.ClosedWalk) :
    c.weight d square ∈ d ∧
    χ.value (c.weight d square) ≤ WeightMatrix.bestMean M.rows ρ ^ c.length := by
  obtain ⟨member, value⟩ := read.walkWeight square c.vertex c.length
  refine ⟨member, value.trans_le ?_⟩
  have along := WeightMatrix.weight_le_pow F c.vertex 0 c.length
  rw [Nat.zero_add, c.closes] at along
  exact along.trans (means.pow_diagonal_le c.length_pos.ne' _)

private theorem exists_value_weight_eq (nonzero : WeightMatrix.bestMean M.rows ρ ≠ 0) :
    ∃ c : M.ClosedWalk, c.weight d square ∈ d ∧
      χ.value (c.weight d square) = WeightMatrix.bestMean M.rows ρ ^ c.length := by
  obtain ⟨k, -, i, attained⟩ := means.exists_pow_diagonal_eq nonzero
  have diagonal : (F ^ (k + 1)) i i ≠ 0 := attained ▸ pow_ne_zero (k + 1) nonzero
  obtain ⟨v, start, finish, weight⟩ := WeightMatrix.exists_weight_eq diagonal
  obtain ⟨member, value⟩ := read.walkWeight square v (k + 1)
  exact ⟨⟨v, k + 1, Nat.succ_pos k, finish.trans start.symm⟩, member,
    value.trans (weight.trans attained)⟩

end Means

/-- The spectral radius bounds the mean weight of every closed walk and is attained by one, if there
is any that does not weigh zero. It wins over one exactly if the power trace does. -/
theorem spectralRadius_eq_cycleMean {d : Dioid ExtendedRational} (exact : d.IsExact)
    (M : Matrix ExtendedRational) (square : M.rows = M.cols) (elements : ∀ a ∈ M.toList, a ∈ d) :
    ∃ radius trace, M.spectralRadius d = .ok radius ∧ M.traceSum d = .ok trace ∧
      (∀ c : M.ClosedWalk, c.weight d square ≠ d.zero →
        ∃ w, c.weight d square = rational w ∧ d.le (rational (w / c.length)) radius) ∧
      (radius ≠ d.zero → ∃ (c : M.ClosedWalk) (w : Rat),
        c.weight d square = rational w ∧ radius = rational (w / c.length)) ∧
      (radius = d.zero ↔ ∀ c : M.ClosedWalk, c.weight d square = d.zero) ∧
      (d.dominates radius d.one ↔ d.dominates trace d.one) := by
  obtain ⟨χ⟩ := Dioid.Chart.nonempty exact
  obtain ⟨F, read⟩ : ∃ F : WeightMatrix M.rows Height, M.Reads χ.toValuation F :=
    exists_reads χ.toValuation elements rfl square.symm
  obtain ⟨radius, ρ, computed, member, means, value⟩ := reads_spectralRadius read
  obtain ⟨trace, summed, traceMember, traceValue⟩ := reads_traceSum read
  have bounded := value_weight_le read square means
  have attained (nonzero : radius ≠ d.zero) : ∃ (c : M.ClosedWalk) (w : Rat),
      c.weight d square = rational w ∧ radius = rational (w / c.length) := by
    rw [Ne, ← χ.value_eq_zero_iff member, value] at nonzero
    obtain ⟨c, inside, best⟩ := exists_value_weight_eq read square means nonzero
    obtain ⟨w, weight, -⟩ := χ.exists_rational inside (best ▸ pow_ne_zero _ nonzero)
    refine ⟨c, w, weight, ?_⟩
    -- roots are unique, so the radius is the `k`-th part of the weight
    have root : χ.value radius ^ c.length = χ.value (rational (w / c.length)) ^ c.length := by
      rw [value, ← best, weight]
      exact (χ.value_divNat_pow (χ.rational_mem w) c.length_pos.ne').symm
    rw [← χ.value_eq_iff member (χ.rational_mem _)]
    exact (pow_left_inj₀ zero_le zero_le c.length_pos.ne').mp root
  refine ⟨radius, trace, computed, summed, ?_, attained, ?_, ?_⟩
  · intro c nonzero
    obtain ⟨inside, below⟩ := bounded c
    rw [Ne, ← χ.value_eq_zero_iff inside] at nonzero
    obtain ⟨w, weight, -⟩ := χ.exists_rational inside nonzero
    refine ⟨w, weight, ?_⟩
    rw [weight, ← χ.value_divNat_pow (χ.rational_mem w) c.length_pos.ne', ← value] at below
    rw [χ.le_iff (χ.rational_mem _) member]
    exact (pow_le_pow_iff_left₀ zero_le zero_le c.length_pos.ne').mp below
  · constructor
    · intro empty c
      obtain ⟨inside, below⟩ := bounded c
      rw [← value, empty, χ.value_zero, zero_pow c.length_pos.ne'] at below
      rw [← χ.value_eq_zero_iff inside]
      exact le_antisymm below zero_le
    · intro vanish
      by_contra nonzero
      obtain ⟨c, w, weight, -⟩ := attained nonzero
      exact χ.rational_ne_zero w (weight.symm.trans (vanish c))
  · rw [χ.dominates_iff_lt member χ.one_mem, χ.dominates_iff_lt traceMember χ.one_mem, χ.value_one,
      value, traceValue, means.one_lt_bestMean_iff, noGain_iff_cycleSum_le, not_le]

/-- The order of max-plus is that of the rational numbers. -/
theorem maxPlus_le_iff (p q : Rat) : Dioid.maxPlus.le (rational p) (rational q) ↔ p ≤ q :=
  (ofMaxPlus.le_iff (ofMaxPlus.rational_mem p) (ofMaxPlus.rational_mem q)).trans Height.exp_le_exp

/-- Three vertices whose best cycle goes to and fro over edges of the weights five and one. -/
def shuttle : Matrix ExtendedRational :=
  .ofVectors #v[#v[.rational 2, .rational 1, .negInfinity],
    #v[.rational 5, .rational 2, .rational (-1)],
    #v[.rational 3, .rational 0, .rational 1]]

theorem spectralRadius_eq_cycleMean_shuttle :
    shuttle.spectralRadius .maxPlus = .ok (rational 3) ∧
    (∀ (c : shuttle.ClosedWalk) (w : Rat), c.weight .maxPlus rfl = rational w → w / c.length ≤ 3) ∧
    ∃ (c : shuttle.ClosedWalk) (w : Rat), c.weight .maxPlus rfl = rational w ∧ w / c.length = 3 := by
  have three : shuttle.spectralRadius .maxPlus = .ok (rational 3) := by decide +kernel
  obtain ⟨radius, trace, computed, -, bound, attained, -, -⟩ :=
    spectralRadius_eq_cycleMean .maxPlus shuttle rfl (by decide)
  obtain rfl : radius = rational 3 := Except.ok.inj (computed.symm.trans three)
  refine ⟨three, ?_, ?_⟩
  · intro c w weight
    obtain ⟨w', weight', below⟩ := bound c (weight ▸ ofMaxPlus.rational_ne_zero w)
    obtain rfl : w = w' := ExtendedRational.rational.inj (weight.symm.trans weight')
    exact (maxPlus_le_iff _ _).mp below
  · obtain ⟨c, w, weight, mean⟩ := attained nofun
    exact ⟨c, w, weight, (ExtendedRational.rational.inj mean).symm⟩

end Matrix

end TropicalAlgebra
