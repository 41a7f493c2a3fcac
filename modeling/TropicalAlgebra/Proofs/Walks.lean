import Mathlib.Algebra.Order.Kleene
import Mathlib.Data.Fintype.Pigeonhole
import Mathlib.Data.Matrix.Basic

/-!
# Walks in a weighted graph

A square matrix over an idempotent semiring holds the weights of the edges of a graph, and its
powers hold the best weights of walks. If no closed walk with at most `n` edges, on `n` vertices, is
better than the empty one, then no walk needs more than `n - 1` edges.
-/

/-- The weights of the edges between `n` vertices. -/
abbrev WeightMatrix (n : Nat) (β : Type) := Matrix (Fin n) (Fin n) β

namespace WeightMatrix

section Semiring

variable {n : Nat} {β : Type} [CommSemiring β] (F : WeightMatrix n β)

/-- The sum of the powers with the exponents `0, …, k`. -/
def closureUpTo (k : Nat) : WeightMatrix n β := ∑ l ∈ Finset.range (k + 1), F ^ l

theorem closureUpTo_zero : F.closureUpTo 0 = 1 := by simp [closureUpTo]

theorem closureUpTo_succ (k : Nat) : F.closureUpTo (k + 1) = F.closureUpTo k + F ^ (k + 1) :=
  Finset.sum_range_succ _ _

theorem closureUpTo_apply (k : Nat) (i j : Fin n) :
    F.closureUpTo k i j = ∑ l ∈ Finset.range (k + 1), (F ^ l) i j := by
  rw [closureUpTo, Matrix.sum_apply]

end Semiring

variable {n : Nat} {β : Type} [IdemCommSemiring β] (F G : WeightMatrix n β)

theorem sum_le {ι : Type} (s : Finset ι) (f : ι → β) {c : β} :
    ∑ i ∈ s, f i ≤ c ↔ ∀ i ∈ s, f i ≤ c := by
  classical
  induction s using Finset.induction_on with
  | empty => simp
  | insert i s hi ih => rw [Finset.sum_insert hi, add_le_iff, ih, Finset.forall_mem_insert]

theorem le_sum {ι : Type} {s : Finset ι} (f : ι → β) {i : ι} (hi : i ∈ s) :
    f i ≤ ∑ j ∈ s, f j :=
  (sum_le s f).mp le_rfl i hi

theorem mul_le_mul_apply (i j l : Fin n) : F i l * G l j ≤ (F * G) i j := by
  rw [Matrix.mul_apply]
  exact le_sum (fun l => F i l * G l j) (Finset.mem_univ l)

/-! ### Weights of walks -/

/-- The weight of the walk along `v` from position `a` over `k` edges. -/
def weight (v : Nat → Fin n) (a k : Nat) : β := ∏ t ∈ Finset.range k, F (v (a + t)) (v (a + t + 1))

theorem weight_add (v : Nat → Fin n) (a k l : Nat) :
    weight F v a (k + l) = weight F v a k * weight F v (a + k) l := by
  simp only [weight, Finset.prod_range_add, Nat.add_assoc]

theorem weight_le_pow (v : Nat → Fin n) (a k : Nat) :
    weight F v a k ≤ (F ^ k) (v a) (v (a + k)) := by
  induction k with
  | zero => simp [weight]
  | succ k ih =>
    calc weight F v a (k + 1)
        = weight F v a k * F (v (a + k)) (v (a + k + 1)) := Finset.prod_range_succ _ _
      _ ≤ (F ^ k) (v a) (v (a + k)) * F (v (a + k)) (v (a + k + 1)) := mul_le_mul_left ih _
      _ ≤ (F ^ (k + 1)) (v a) (v (a + (k + 1))) := by
        rw [pow_succ]
        exact mul_le_mul_apply _ _ _ _ _

/-- One more edge at the end of a walk. -/
theorem weight_update (v : Nat → Fin n) (k : Nat) (j : Fin n) :
    weight F (Function.update v (k + 1) j) 0 (k + 1) = weight F v 0 k * F (v k) j := by
  have prefix_eq : weight F (Function.update v (k + 1) j) 0 k = weight F v 0 k := by
    apply Finset.prod_congr rfl
    intro t ht
    have ht : t < k := Finset.mem_range.mp ht
    rw [Function.update_of_ne (by omega), Function.update_of_ne (by omega)]
  rw [weight_add, prefix_eq]
  simp [weight]

/-- A power is the least bound on the weights of the walks with that many edges. The factor `x`
stands for the edges that follow. -/
theorem pow_apply_mul_le {k : Nat} {i j : Fin n} {x c : β}
    (bound : ∀ v : Nat → Fin n, v 0 = i → v k = j → weight F v 0 k * x ≤ c) :
    (F ^ k) i j * x ≤ c := by
  induction k generalizing j x with
  | zero =>
    rw [pow_zero, Matrix.one_apply]
    split
    next same =>
      have constant := bound (fun _ => i) rfl same
      simpa [weight] using constant
    next => simp
  | succ k ih =>
    rw [pow_succ, Matrix.mul_apply, Finset.sum_mul, sum_le]
    intro l _
    rw [mul_assoc]
    apply ih
    intro v start finish
    have longer := bound (Function.update v (k + 1) j) (by simpa using start) (by simp)
    rwa [weight_update, finish, mul_assoc] at longer

theorem pow_apply_le {k : Nat} {i j : Fin n} {c : β}
    (bound : ∀ v : Nat → Fin n, v 0 = i → v k = j → weight F v 0 k ≤ c) : (F ^ k) i j ≤ c := by
  have scaled := F.pow_apply_mul_le (x := 1) (c := c) fun v start finish => by
    simpa using bound v start finish
  simpa using scaled

/-! ### Short walks suffice -/

/-- No closed walk with at most `n` edges is better than the empty one. -/
def NoGain : Prop := ∀ k < n, ∀ i, (F ^ (k + 1)) i i ≤ 1

-- among the first `n + 1` vertices of a walk one occurs twice
private theorem exists_repeated (v : Nat → Fin n) : ∃ a b, a < b ∧ b ≤ n ∧ v a = v b := by
  obtain ⟨a, b, distinct, same⟩ :=
    Fintype.exists_ne_map_eq_of_card_lt (fun t : Fin (n + 1) => v t) (by simp)
  rcases Nat.lt_or_gt_of_ne (Fin.val_ne_of_ne distinct) with less | greater
  · exact ⟨a, b, less, by omega, same⟩
  · exact ⟨b, a, greater, by omega, same.symm⟩

/-- A walk with `n` edges or more is no better than a shorter one. -/
private theorem exists_shorter (noGain : F.NoGain) {k : Nat} (long : n ≤ k) (v : Nat → Fin n) :
    ∃ l < k, weight F v 0 k ≤ (F ^ l) (v 0) (v k) := by
  obtain ⟨a, b, less, bound, same⟩ := exists_repeated v
  obtain ⟨c, rfl⟩ : ∃ c, b = a + (c + 1) := ⟨b - a - 1, by omega⟩
  obtain ⟨r, rfl⟩ : ∃ r, k = a + (c + 1) + r := ⟨k - (a + (c + 1)), by omega⟩
  have cycle : weight F v a (c + 1) ≤ 1 := by
    refine (weight_le_pow F v a (c + 1)).trans ?_
    rw [← same]
    exact noGain c (by omega) (v a)
  refine ⟨a + r, by omega, ?_⟩
  calc weight F v 0 (a + (c + 1) + r)
      = weight F v 0 a * weight F v a (c + 1) * weight F v (a + (c + 1)) r := by
        rw [weight_add, weight_add, Nat.zero_add, Nat.zero_add]
    _ ≤ weight F v 0 a * 1 * weight F v (a + (c + 1)) r :=
        mul_le_mul_left (mul_le_mul_right cycle _) _
    _ ≤ (F ^ a) (v 0) (v a) * (F ^ r) (v a) (v (a + (c + 1) + r)) := by
        rw [mul_one]
        have first := weight_le_pow F v 0 a
        have second := weight_le_pow F v (a + (c + 1)) r
        rw [Nat.zero_add] at first
        rw [← same] at second
        exact mul_le_mul' first second
    _ ≤ (F ^ (a + r)) (v 0) (v (a + (c + 1) + r)) := by
        rw [pow_add]
        exact mul_le_mul_apply _ _ _ _ _

/-- Every power stays below the sum of the first `n`. -/
theorem pow_le_sum (noGain : F.NoGain) (k : Nat) (i j : Fin n) :
    (F ^ k) i j ≤ ∑ l ∈ Finset.range n, (F ^ l) i j := by
  induction k using Nat.strong_induction_on with
  | _ k ih =>
    rcases Nat.lt_or_ge k n with short | long
    · exact le_sum (fun l => (F ^ l) i j) (Finset.mem_range.mpr short)
    · apply pow_apply_le
      rintro v rfl rfl
      obtain ⟨l, less, shorter⟩ := F.exists_shorter noGain long v
      exact shorter.trans (ih l less)

theorem closureUpTo_eq (noGain : F.NoGain) {k : Nat} (enough : n - 1 ≤ k) :
    F.closureUpTo k = F.closureUpTo (n - 1) := by
  funext i j
  have pos : 0 < n := i.pos
  apply le_antisymm
  · rw [closureUpTo_apply, closureUpTo_apply, Nat.sub_add_cancel pos, sum_le]
    exact fun l _ => F.pow_le_sum noGain l i j
  · rw [closureUpTo_apply, closureUpTo_apply, sum_le]
    intro l hl
    have hl : l < n - 1 + 1 := Finset.mem_range.mp hl
    exact le_sum (fun l => (F ^ l) i j) (Finset.mem_range.mpr (by omega))

/-! ### Repeated sums -/

-- once a sum repeats its predecessor, no later power adds anything
theorem pow_le_of_repeats {k : Nat} (repeats : F.closureUpTo k = F.closureUpTo (k + 1)) (l : Nat)
    (i j : Fin n) : (F ^ l) i j ≤ F.closureUpTo k i j := by
  induction l generalizing j with
  | zero =>
    rw [closureUpTo_apply]
    exact le_sum (fun l => (F ^ l) i j) (Finset.mem_range.mpr (Nat.succ_pos k))
  | succ l ih =>
    rw [pow_succ, Matrix.mul_apply, sum_le]
    intro v _
    refine (mul_le_mul_left (ih v) _).trans ?_
    rw [closureUpTo_apply, Finset.sum_mul, sum_le]
    intro t ht
    have ht : t < k + 1 := Finset.mem_range.mp ht
    refine (mul_le_mul_apply (F ^ t) F i j v).trans ?_
    rw [← pow_succ, repeats, closureUpTo_apply]
    exact le_sum (fun l => (F ^ l) i j) (Finset.mem_range.mpr (by omega))

/-- If a sum of powers repeats its predecessor and products can be cancelled, then no closed walk
is better than the empty one. -/
theorem pow_diagonal_le_one {k : Nat} (repeats : F.closureUpTo k = F.closureUpTo (k + 1))
    (cancel : ∀ x y z : β, x ≠ 0 → x * y = x * z → y = z) (zero_ne_one : (0 : β) ≠ 1) (l : Nat)
    (i : Fin n) : (F ^ l) i i ≤ 1 := by
  have one_le : 1 ≤ F.closureUpTo k i i := by
    simpa using F.pow_le_of_repeats repeats 0 i i
  -- two closed walks in a row are one closed walk, so the best weight is idempotent
  have square_le : F.closureUpTo k i i * F.closureUpTo k i i ≤ F.closureUpTo k i i := by
    conv_lhs => rw [closureUpTo_apply, Finset.sum_mul_sum]
    rw [sum_le]
    intro a _
    rw [sum_le]
    intro b _
    refine (mul_le_mul_apply (F ^ a) (F ^ b) i i i).trans ?_
    rw [← pow_add]
    exact F.pow_le_of_repeats repeats (a + b) i i
  have square_eq : F.closureUpTo k i i * F.closureUpTo k i i = F.closureUpTo k i i * 1 := by
    rw [mul_one]
    exact le_antisymm square_le (le_mul_of_one_le_right' one_le)
  have nonzero : F.closureUpTo k i i ≠ 0 := by
    intro vanishes
    rw [vanishes] at one_le
    exact zero_ne_one (le_antisymm zero_le one_le)
  have best := cancel _ _ _ nonzero square_eq
  exact (F.pow_le_of_repeats repeats l i i).trans_eq best

end WeightMatrix
