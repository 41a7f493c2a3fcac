import Mathlib.Tactic.Linarith
import TropicalAlgebra.Proofs.Matrix.Residuation

/-!
# Distances between columns

The entries of a column without a zero are rational numbers. A factor between the heights of two
such columns is a distance between their entries.
-/

namespace TropicalAlgebra

namespace Height

variable {m : Nat}

theorem within_exp_iff {t : Rat} {a b : Fin m → Rat} :
    Within (exp t) (fun i => exp (a i)) (fun i => exp (b i)) ↔ ∀ i, |a i - b i| ≤ t := by
  simp only [Within, ← exp_add, exp_le_exp, abs_sub_le_iff, sub_le_iff_le_add']

/-- In a balanced pair the largest distance is half of the gap. -/
theorem Balanced.isGreatest {a b : Fin m → Rat} {γ : Rat}
    (balanced : Balanced (fun i => exp (a i)) (fun i => exp (b i)) (exp γ)) :
    IsGreatest (Set.range fun i => |a i - b i|) (|γ| / 2) := by
  obtain ⟨s, root, close, i, far⟩ := balanced.root
  have gain : 0 ≤ γ := exp_le_exp.mp balanced.one_le
  obtain rfl | ⟨t, rfl⟩ := eq_zero_or_exp s
  · simp [(exp_ne_zero γ).symm] at root
  · rw [← exp_add, exp_inj] at root
    have half : |γ| / 2 = t := by
      rw [abs_of_nonneg gain]
      linarith
    have nonneg : 0 ≤ t := by linarith
    rw [half]
    -- row `i` attains the factor, on one side or on the other
    refine ⟨⟨i, ?_⟩, ?_⟩
    · simp only [← exp_add, exp_inj] at far
      rcases far with far | far
      · simp [far, abs_of_nonneg nonneg]
      · simp [far, abs_of_nonneg nonneg]
    · rintro _ ⟨i, rfl⟩
      exact within_exp_iff.mp close i

end Height

open ExtendedRational

namespace Dioid.Chart

variable {d : Dioid ExtendedRational} (χ : d.Chart) {m : Nat}

/-- The heights of rational numbers. -/
def heights (a : Fin m → Rat) (i : Fin m) : Height := Height.exp (χ.sign * a i)

theorem heights_ne_zero (a : Fin m → Rat) (i : Fin m) : χ.heights a i ≠ 0 := Height.exp_ne_zero _

theorem within_heights_iff {t : Rat} {a b : Fin m → Rat} :
    Height.Within (Height.exp t) (χ.heights a) (χ.heights b) ↔ ∀ i, |a i - b i| ≤ t := by
  unfold heights
  simp only [Height.within_exp_iff, ← mul_sub, χ.abs_sign_mul]

/-- Elements that are described by heights other than zero are rational numbers. -/
theorem exists_heights_eq {property : Fin m → ExtendedRational → Prop} {v : Fin m → Height}
    (each : ∀ i, ∃ a, property i a ∧ a ∈ d ∧ χ.value a = v i) (nonzero : ∀ i, v i ≠ 0) :
    ∃ u, (∀ i, property i (rational (u i))) ∧ v = χ.heights u := by
  have entry (i : Fin m) : ∃ q, property i (rational q) ∧ v i = Height.exp (χ.sign * q) := by
    obtain ⟨a, holds, member, value⟩ := each i
    obtain ⟨q, rfl, height⟩ := χ.exists_rational member (value.trans_ne (nonzero i))
    exact ⟨q, holds, value.symm.trans height⟩
  choose u holds heights using entry
  exact ⟨u, holds, funext heights⟩

/-- Half of the gap of a balanced pair is the largest distance between its rational numbers. -/
theorem isGreatest_of_balanced {a b : Fin m → Rat} {gap : ExtendedRational} (member : gap ∈ d)
    (balanced : Height.Balanced (χ.heights a) (χ.heights b) (χ.value gap)) :
    ∃ δ, gap = rational δ ∧ IsGreatest (Set.range fun i => |a i - b i|) (|δ| / 2) := by
  have nonzero : χ.value gap ≠ 0 := (zero_lt_one.trans_le balanced.one_le).ne'
  obtain ⟨δ, rfl, height⟩ := χ.exists_rational member nonzero
  rw [height] at balanced
  refine ⟨δ, rfl, ?_⟩
  have greatest := balanced.isGreatest
  simpa only [← mul_sub, χ.abs_sign_mul] using greatest

/-- An image has somewhere at least the distance that the gap says. -/
theorem exists_distance_ge {p : Nat} (pos : 0 < m) {B : Fin m → Fin p → Height}
    {u : Fin p → Height} {a b : Fin m → Rat} {δ : Rat} (image : Height.image B u = χ.heights a)
    (one_le : 1 ≤ Height.gap B (χ.heights b))
    (gap : Height.gap B (χ.heights b) = Height.exp (χ.sign * δ)) : ∃ i, |δ| / 2 ≤ |a i - b i| := by
  obtain ⟨i, -, largest⟩ := Finset.exists_max_image Finset.univ (fun i => |a i - b i|)
    ⟨⟨0, pos⟩, Finset.mem_univ _⟩
  refine ⟨i, ?_⟩
  -- the largest distance is a factor within which the image stays, so the gap is at most its square
  have close : Height.Within (Height.exp |a i - b i|) (Height.image B u) (χ.heights b) := by
    rw [image, χ.within_heights_iff]
    exact fun k => largest k (Finset.mem_univ k)
  have bound := Height.gap_le_of_within (χ.heights_ne_zero b) close
  rw [gap, ← Height.exp_add, Height.exp_le_exp] at bound
  rw [gap, ← Height.exp_zero, Height.exp_le_exp] at one_le
  rw [← χ.abs_sign_mul, abs_of_nonneg one_le]
  linarith

end Dioid.Chart

namespace Matrix

variable {d : Dioid ExtendedRational} {χ : d.Chart} {m : Nat}

/-- The column with given rational entries. -/
def ofRationals (pos : 0 < m) (a : Fin m → Rat) : Matrix ExtendedRational :=
  ofFn m 1 pos Nat.one_pos fun i _ => rational (a i)

theorem readsColumn_ofRationals (pos : 0 < m) (a : Fin m → Rat) :
    (ofRationals pos a).ReadsColumn χ (χ.heights a) :=
  reads_ofFn (fun _ _ => χ.rational_mem _) fun _ _ => χ.value_rational _

theorem ReadsColumn.exists_eq_ofRationals {x : Matrix ExtendedRational} {v : Fin m → Height}
    (read : x.ReadsColumn χ v) (pos : 0 < m) (nonzero : ∀ i, v i ≠ 0) :
    ∃ a, x = ofRationals pos a ∧ v = χ.heights a := by
  have cells (i : Fin m) : ∃ a, True ∧ a ∈ d ∧ χ.value a = v i :=
    ⟨_, trivial, read.mem _ _, read.value i 0⟩
  obtain ⟨a, -, rfl⟩ := χ.exists_heights_eq cells nonzero
  exact ⟨a, read.ext (readsColumn_ofRationals pos a), rfl⟩

/-- Two columns with a balanced pair of heights have rational entries, and half of the gap is their
largest distance. -/
theorem ReadsColumn.isGreatest {x y : Matrix ExtendedRational} {v w : Fin m → Height}
    {gap : ExtendedRational} (readX : x.ReadsColumn χ v) (readY : y.ReadsColumn χ w)
    (pos : 0 < m) (member : gap ∈ d) (balanced : Height.Balanced v w (χ.value gap)) :
    ∃ a b δ, x = ofRationals pos a ∧ y = ofRationals pos b ∧ gap = rational δ ∧
      IsGreatest (Set.range fun i => |a i - b i|) (|δ| / 2) := by
  obtain ⟨a, rfl, rfl⟩ := readX.exists_eq_ofRationals pos balanced.left_ne_zero
  obtain ⟨b, rfl, rfl⟩ := readY.exists_eq_ofRationals pos balanced.right_ne_zero
  obtain ⟨δ, rfl, greatest⟩ := χ.isGreatest_of_balanced member balanced
  exact ⟨a, b, δ, rfl, rfl, rfl, greatest⟩

end Matrix

end TropicalAlgebra
