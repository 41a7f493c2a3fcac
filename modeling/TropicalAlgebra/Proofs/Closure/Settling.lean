import TropicalAlgebra.Proofs.Dioid.Distributive

/-!
# Sums of powers that settle

Where products are not associative, a power is a product that is extended by one edge at a time. The
sums of such powers grow, and one that repeats its predecessor is the last: a sum `T` which is
not exceeded by its extensions is not exceeded by the extensions of anything below it.

Sums and products are described by the order alone, so that neither the way they are
computed nor the representative of a scalar matters.
-/

namespace TropicalAlgebra

namespace Dioid.Distributive

variable {α ι : Type} [Scalar α] {d : Dioid α} {factors terms : Set α}

/-- `U` is the sum of `T` and `P`. -/
def IsSum (_ : d.Distributive factors terms) (T P U : ι → ι → α) : Prop :=
  ∀ i j, ∀ x ∈ terms, d.le (U i j) x ↔ d.le (T i j) x ∧ d.le (P i j) x

/-- `Q` is the product of `P` and `M`. -/
def IsProduct (_ : d.Distributive factors terms) (P M Q : ι → ι → α) : Prop :=
  ∀ i j, ∀ x ∈ terms, d.le (Q i j) x ↔ ∀ c, d.le (d.mul (P i c) (M c j)) x

/-- After `k` steps from the identity `I`, the last power of `M` is `P` and the sum of all powers
so far is `T`. -/
inductive Sums (law : d.Distributive factors terms) (I M : ι → ι → α) :
    Nat → (ι → ι → α) → (ι → ι → α) → Prop
  | start (members : ∀ i j, I i j ∈ factors) : Sums law I M 0 I I
  | next {k : Nat} {P T Q U : ι → ι → α} (before : Sums law I M k P T)
      (power : ∀ i j, Q i j ∈ factors) (total : ∀ i j, U i j ∈ factors)
      (product : law.IsProduct P M Q) (sum : law.IsSum T Q U) : Sums law I M (k + 1) Q U

variable {law : d.Distributive factors terms} {I M P Q T U : ι → ι → α} {k m : Nat}

theorem IsSum.left_le (sum : law.IsSum T P U) (member : ∀ i j, U i j ∈ factors) (i j : ι) :
    d.le (T i j) (U i j) := by
  have term := law.factor_term (member i j)
  exact ((sum i j _ term).mp (law.joins.le_refl term)).1

theorem IsSum.right_le (sum : law.IsSum T P U) (member : ∀ i j, U i j ∈ factors) (i j : ι) :
    d.le (P i j) (U i j) := by
  have term := law.factor_term (member i j)
  exact ((sum i j _ term).mp (law.joins.le_refl term)).2

theorem IsProduct.mul_le (product : law.IsProduct P M Q) (member : ∀ i j, Q i j ∈ factors)
    (i c j : ι) : d.le (d.mul (P i c) (M c j)) (Q i j) := by
  have term := law.factor_term (member i j)
  exact (product i j _ term).mp (law.joins.le_refl term) c

/-- A product is determined up to equality. -/
theorem IsProduct.le {Q' : ι → ι → α} (product : law.IsProduct P M Q)
    (other : law.IsProduct P M Q') (member : ∀ i j, Q' i j ∈ terms) (i j : ι) :
    d.le (Q i j) (Q' i j) := by
  rw [product i j _ (member i j), ← other i j _ (member i j)]
  exact law.joins.le_refl (member i j)

namespace Sums

theorem power_mem (sums : law.Sums I M k P T) (i j : ι) : P i j ∈ factors := by
  cases sums with
  | start members => exact members i j
  | next _ power _ _ _ => exact power i j

theorem total_mem (sums : law.Sums I M k P T) (i j : ι) : T i j ∈ factors := by
  cases sums with
  | start members => exact members i j
  | next _ _ total _ _ => exact total i j

theorem power_term (sums : law.Sums I M k P T) (i j : ι) : P i j ∈ terms :=
  law.factor_term (sums.power_mem i j)

theorem total_term (sums : law.Sums I M k P T) (i j : ι) : T i j ∈ terms :=
  law.factor_term (sums.total_mem i j)

theorem power_le_total (sums : law.Sums I M k P T) (i j : ι) : d.le (P i j) (T i j) := by
  cases sums with
  | start members => exact law.joins.le_refl (law.factor_term (members i j))
  | next _ _ total _ sum => exact sum.right_le total i j

/-- The same number of steps leads to the same power and the same sum. -/
theorem le (edges : ∀ i j, M i j ∈ factors) {P' T' : ι → ι → α} (sums : law.Sums I M k P T)
    (other : law.Sums I M k P' T') (i j : ι) :
    d.le (P i j) (P' i j) ∧ d.le (T i j) (T' i j) := by
  induction sums generalizing P' T' i j with
  | start members =>
    cases other
    have term := law.factor_term (members i j)
    exact ⟨law.joins.le_refl term, law.joins.le_refl term⟩
  | @next k P T Q U before power total product sum ih =>
    cases other with
    | @next _ P₂ T₂ Q₂ U₂ before' power' total' product' sum' =>
      have powers : d.le (Q i j) (P' i j) := by
        rw [product i j _ (law.factor_term (power' i j))]
        intro c
        have longer := law.mul_term (before.power_mem i c) (edges c j)
        have longer' := law.mul_term (before'.power_mem i c) (edges c j)
        have extended := law.isotone.mul_le_mul_left (before.power_mem i c) (before'.power_mem i c)
          (edges c j) (ih before' i c).1
        exact law.joins.le_trans longer longer' (law.factor_term (power' i j)) extended
          (product'.mul_le power' i c j)
      refine ⟨powers, ?_⟩
      have term := law.factor_term (total' i j)
      rw [sum i j _ term]
      exact ⟨law.joins.le_trans (before.total_term i j) (before'.total_term i j) term
          (ih before' i j).2 (sum'.left_le total' i j),
        law.joins.le_trans (law.factor_term (power i j)) (law.factor_term (power' i j)) term powers
          (sum'.right_le total' i j)⟩

/-- The power after `P` is the product of `P` and `M`. -/
theorem isProduct (edges : ∀ i j, M i j ∈ factors) (sums : law.Sums I M k P T)
    (next : law.Sums I M (k + 1) Q U) : law.IsProduct P M Q := by
  cases next with
  | @next _ P₂ T₂ _ _ before power total product sum =>
    intro i j x hx
    rw [product i j x hx]
    refine forall_congr' fun c => ⟨fun below => ?_, fun below => ?_⟩
    · exact law.joins.le_trans (law.mul_term (sums.power_mem i c) (edges c j))
        (law.mul_term (before.power_mem i c) (edges c j)) hx
        (law.isotone.mul_le_mul_left (sums.power_mem i c) (before.power_mem i c) (edges c j)
          (sums.le edges before i c).1) below
    · exact law.joins.le_trans (law.mul_term (before.power_mem i c) (edges c j))
        (law.mul_term (sums.power_mem i c) (edges c j)) hx
        (law.isotone.mul_le_mul_left (before.power_mem i c) (sums.power_mem i c) (edges c j)
          (before.le edges sums i c).1) below

/-- Sums grow. -/
theorem total_le_total (edges : ∀ i j, M i j ∈ factors) (sums : law.Sums I M k P T)
    (later : law.Sums I M m Q U) (order : k ≤ m) (i j : ι) : d.le (T i j) (U i j) := by
  induction later with
  | start members =>
    obtain rfl : k = 0 := Nat.le_zero.mp order
    exact (sums.le edges (.start members) i j).2
  | @next m P₂ T₂ Q U before power total product sum ih =>
    rcases Nat.lt_or_eq_of_le order with earlier | rfl
    · exact law.joins.le_trans (sums.total_term i j) (before.total_term i j)
        (law.factor_term (total i j)) (ih (Nat.le_of_lt_succ earlier))
        (sum.left_le total i j)
    · exact (sums.le edges (before.next power total product sum) i j).2

/-- One more edge takes a sum no further than to the next sum. -/
theorem mul_total_le (edges : ∀ i j, M i j ∈ factors) (sums : law.Sums I M k P T)
    (power : ∀ i j, Q i j ∈ factors) (total : ∀ i j, U i j ∈ factors)
    (product : law.IsProduct P M Q) (sum : law.IsSum T Q U) (i c j : ι) :
    d.le (d.mul (T i c) (M c j)) (U i j) := by
  induction sums generalizing Q U with
  | start members =>
    exact law.joins.le_trans (law.mul_term (members i c) (edges c j)) (law.factor_term (power i j))
      (law.factor_term (total i j)) (product.mul_le power i c j) (sum.right_le total i j)
  | @next k P₀ T₀ P T before power₀ total₀ product₀ sum₀ ih =>
    have bound := law.factor_term (total i j)
    -- the sum so far is an earlier sum and the last power; each is extended by the edge
    have earlier : d.le (d.mul (T₀ i c) (M c j)) (U i j) :=
      law.joins.le_trans (law.mul_term (before.total_mem i c) (edges c j))
        (law.factor_term (total₀ i j)) bound (ih power₀ total₀ product₀ sum₀)
        (sum.left_le total i j)
    have newest : d.le (d.mul (P i c) (M c j)) (U i j) :=
      law.joins.le_trans (law.mul_term (power₀ i c) (edges c j)) (law.factor_term (power i j)) bound
        (product.mul_le power i c j) (sum.right_le total i j)
    have both := law.add_factor (before.total_mem i c) (power₀ i c)
    have covered : d.le (T i c) (d.add (T₀ i c) (P i c)) := by
      rw [sum₀ i c _ (law.factor_term both)]
      exact ⟨law.joins.le_add_left (before.total_term i c) (law.factor_term (power₀ i c)),
        law.joins.le_add_right (before.total_term i c) (law.factor_term (power₀ i c))⟩
    exact law.joins.le_trans (law.mul_term (total₀ i c) (edges c j))
      (law.mul_term both (edges c j)) bound
      (law.isotone.mul_le_mul_left (total₀ i c) both (edges c j) covered)
      (law.add_mul_le (before.total_mem i c) (power₀ i c) (edges c j) bound earlier newest)

/-- If the next sum does not exceed `T`, then neither does `T` with one more edge. -/
theorem mul_le_of_repeats (edges : ∀ i j, M i j ∈ factors) (sums : law.Sums I M k P T)
    {P' T' : ι → ι → α} (next : law.Sums I M (k + 1) P' T')
    (repeats : ∀ i j, d.le (T' i j) (T i j)) (i c j : ι) :
    d.le (d.mul (T i c) (M c j)) (T i j) := by
  cases next with
  | @next _ P₂ T₂ _ _ before power total product sum =>
    have start := law.isotone.mul_le_mul_left (sums.total_mem i c) (before.total_mem i c)
      (edges c j) (sums.le edges before i c).2
    have step := before.mul_total_le edges power total product sum i c j
    have longer := law.mul_term (sums.total_mem i c) (edges c j)
    have longer' := law.mul_term (before.total_mem i c) (edges c j)
    have last := law.factor_term (total i j)
    exact law.joins.le_trans longer last (sums.total_term i j)
      (law.joins.le_trans longer longer' last start step) (repeats i j)

/-- If the next sum does not exceed `T`, then no later power and no later sum does. -/
theorem le_of_repeats (edges : ∀ i j, M i j ∈ factors) (sums : law.Sums I M k P T)
    {P' T' : ι → ι → α} (next : law.Sums I M (k + 1) P' T')
    (repeats : ∀ i j, d.le (T' i j) (T i j)) (later : law.Sums I M m Q U) (order : k ≤ m)
    (i j : ι) : d.le (Q i j) (T i j) ∧ d.le (U i j) (T i j) := by
  have closed := sums.mul_le_of_repeats edges next repeats
  have base {Q U : ι → ι → α} (same : law.Sums I M k Q U) (i j : ι) :
      d.le (Q i j) (T i j) ∧ d.le (U i j) (T i j) := by
    obtain ⟨-, totals⟩ := same.le edges sums i j
    exact ⟨law.joins.le_trans (same.power_term i j) (same.total_term i j) (sums.total_term i j)
      (same.power_le_total i j) totals, totals⟩
  induction later generalizing i j with
  | start members =>
    obtain rfl : k = 0 := Nat.le_zero.mp order
    exact base (.start members) i j
  | @next m P₂ T₂ Q U before power total product sum ih =>
    rcases Nat.lt_or_eq_of_le order with earlier | rfl
    · have before_le := fun i j => ih (Nat.le_of_lt_succ earlier) i j
      have power_le : d.le (Q i j) (T i j) := by
        rw [product i j _ (sums.total_term i j)]
        intro c
        exact law.joins.le_trans (law.mul_term (before.power_mem i c) (edges c j))
          (law.mul_term (sums.total_mem i c) (edges c j)) (sums.total_term i j)
          (law.isotone.mul_le_mul_left (before.power_mem i c) (sums.total_mem i c) (edges c j)
            (before_le i c).1) (closed i c j)
      refine ⟨power_le, ?_⟩
      rw [sum i j _ (sums.total_term i j)]
      exact ⟨(before_le i j).2, power_le⟩
    · exact base (before.next power total product sum) i j

end Sums

end Dioid.Distributive

end TropicalAlgebra
