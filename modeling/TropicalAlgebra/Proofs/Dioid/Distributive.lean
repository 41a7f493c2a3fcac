import TropicalAlgebra.Proofs.Dioid.Isotone

/-!
# Laws that survive rounding

A rounded product is still monotone, so it distributes over a sum that picks one of its operands;
what is lost is that products are associative and stay inside the dioid. The laws below ask for no
more. They make the sum of two terms the least term above both, and products monotone.
-/

namespace TropicalAlgebra

namespace Dioid

variable {α : Type}

/-- The elements as a set. -/
def elements (d : Dioid α) : Set α := {a | a ∈ d}

variable [Scalar α]

/-- Products of factors distribute over sums of terms. The factors are the scalars that are
multiplied, among them the elements; the terms are those that are added, among them the products,
whether or not these are elements. Products need not be associative. -/
structure Distributive (d : Dioid α) (factors terms : Set α) : Prop where
  element_factor : ∀ {a}, a ∈ d → a ∈ factors
  factor_term : ∀ {a}, a ∈ factors → a ∈ terms
  zero_factor : d.zero ∈ factors
  one_factor : d.one ∈ factors
  add_factor : ∀ {a b}, a ∈ factors → b ∈ factors → d.add a b ∈ factors
  add_term : ∀ {a b}, a ∈ terms → b ∈ terms → d.add a b ∈ terms
  mul_term : ∀ {a b}, a ∈ factors → b ∈ factors → d.mul a b ∈ terms
  refl : ∀ {a}, a ∈ terms → a == a
  symm : ∀ {a b}, a ∈ terms → b ∈ terms → a == b → b == a
  trans : ∀ {a b c}, a ∈ terms → b ∈ terms → c ∈ terms → a == b → b == c → a == c
  orderEq_iff : ∀ {a b}, a ∈ terms → b ∈ terms → (Scalar.orderEq a b ↔ a == b)
  add_congr : ∀ {a a' b b'}, a ∈ terms → a' ∈ terms → b ∈ terms → b' ∈ terms → a == a' → b == b' →
    d.add a b == d.add a' b'
  mul_congr : ∀ {a a' b b'}, a ∈ factors → a' ∈ factors → b ∈ factors → b' ∈ factors →
    a == a' → b == b' → d.mul a b == d.mul a' b'
  add_assoc : ∀ {a b c}, a ∈ terms → b ∈ terms → c ∈ terms →
    d.add (d.add a b) c == d.add a (d.add b c)
  add_comm : ∀ {a b}, a ∈ terms → b ∈ terms → d.add a b == d.add b a
  add_idem : ∀ {a}, a ∈ terms → d.add a a == a
  zero_add : ∀ {a}, a ∈ terms → d.add d.zero a == a
  zero_mul : ∀ {a}, a ∈ factors → d.mul d.zero a == d.zero
  mul_zero : ∀ {a}, a ∈ factors → d.mul a d.zero == d.zero
  one_mul : ∀ {a}, a ∈ factors → d.mul d.one a == a
  mul_one : ∀ {a}, a ∈ factors → d.mul a d.one == a
  mul_add : ∀ {a b c}, a ∈ factors → b ∈ factors → c ∈ factors →
    d.mul a (d.add b c) == d.add (d.mul a b) (d.mul a c)
  add_mul : ∀ {a b c}, a ∈ factors → b ∈ factors → c ∈ factors →
    d.mul (d.add a b) c == d.add (d.mul a c) (d.mul b c)

/-- The dioid with the factors of every product exchanged. -/
def flip (d : Dioid α) : Dioid α := { d with mul := fun a b => d.mul b a }

namespace Distributive

variable {d : Dioid α} {factors terms : Set α} (law : d.Distributive factors terms)
variable {a b c x : α}

include law

theorem flip : d.flip.Distributive factors terms where
  __ := law
  mul_term ha hb := law.mul_term hb ha
  mul_congr ha ha' hb hb' h k := law.mul_congr hb hb' ha ha' k h
  zero_mul := law.mul_zero
  mul_zero := law.zero_mul
  one_mul := law.mul_one
  mul_one := law.one_mul
  mul_add ha hb hc := law.add_mul hb hc ha
  add_mul ha hb hc := law.mul_add hc ha hb

/-! ### Terms and their order -/

theorem zero_term : d.zero ∈ terms := law.factor_term law.zero_factor

theorem isZero_zero : d.isZero d.zero = true := law.refl law.zero_term

theorem joins : d.Joins terms where
  __ := law

theorem le_of_isZero (ha : a ∈ terms) (hb : b ∈ terms) (empty : d.isZero a = true) : d.le a b :=
  (law.joins.le_iff_of_beq ha law.zero_term hb empty).mpr (law.zero_add hb)

theorem annihilating : d.Annihilating (· == ·) factors terms where
  __ := law
  zero_term := law.zero_term
  same_zero _ empty := empty
  add_zero ha := by
    have exchanged := law.add_comm ha law.zero_term
    exact law.trans (law.add_term ha law.zero_term) (law.add_term law.zero_term ha) ha exchanged
      (law.zero_add ha)
  zero_mul ha hb empty := by
    have cleared := law.mul_congr ha law.zero_factor hb hb empty (law.refl (law.factor_term hb))
    exact law.trans (law.mul_term ha hb) (law.mul_term law.zero_factor hb) law.zero_term cleared
      (law.zero_mul hb)
  mul_zero ha hb empty := by
    have cleared := law.mul_congr ha ha hb law.zero_factor (law.refl (law.factor_term ha)) empty
    exact law.trans (law.mul_term ha hb) (law.mul_term ha law.zero_factor) law.zero_term cleared
      (law.mul_zero ha)

theorem isotone : d.Isotone factors terms where
  __ := law.annihilating
  __ := law

/-! ### Sums that leave out zero -/

theorem addCell_le_iff (ha : a ∈ terms) (hb : b ∈ terms) (hx : x ∈ terms) :
    d.le (Matrix.addCell d a b) x ↔ d.le a x ∧ d.le b x := by
  obtain ⟨member, plain⟩ := law.annihilating.same_addCell ha hb
  rw [law.joins.le_iff_of_beq member (law.add_term ha hb) hx plain]
  exact law.joins.add_le_iff ha hb hx

theorem total_le_iff {xs : List α} (members : ∀ b ∈ xs, b ∈ terms) (hx : x ∈ terms) :
    d.le (d.total xs) x ↔ ∀ b ∈ xs, d.le b x := by
  rw [total, law.joins.foldl_add_le_iff members law.zero_term hx]
  exact and_iff_right (law.zero_add hx)

theorem sum_term {xs : List α} (members : ∀ b ∈ xs, b ∈ terms) : d.sum xs ∈ terms :=
  (law.annihilating.same_sum members).1

/-! ### Products -/

theorem mul_le_of_isZero_left (ha : a ∈ factors) (hb : b ∈ factors) (hx : x ∈ terms)
    (empty : d.isZero a = true) : d.le (d.mul a b) x :=
  law.le_of_isZero (law.mul_term ha hb) hx (law.annihilating.zero_mul ha hb empty)

theorem mul_le_of_isZero_right (ha : a ∈ factors) (hb : b ∈ factors) (hx : x ∈ terms)
    (empty : d.isZero b = true) : d.le (d.mul a b) x :=
  law.le_of_isZero (law.mul_term ha hb) hx (law.annihilating.mul_zero ha hb empty)

theorem formed_term {xs ys : List α} (hxs : ∀ b ∈ xs, b ∈ factors) (hys : ∀ b ∈ ys, b ∈ factors) :
    ∀ b ∈ (xs.zip ys).filterMap d.term?, b ∈ terms := by
  intro b hb
  obtain ⟨⟨l, r⟩, hp, formed⟩ := List.mem_filterMap.mp hb
  simp only [term?, Option.ite_none_left_eq_some, Option.some.injEq] at formed
  rw [← formed.2]
  exact law.mul_term (hxs _ (List.of_mem_zip hp).1) (hys _ (List.of_mem_zip hp).2)

theorem dot_term {xs ys : List α} (hxs : ∀ b ∈ xs, b ∈ factors) (hys : ∀ b ∈ ys, b ∈ factors) :
    d.dot xs ys ∈ terms :=
  (law.annihilating.same_dot hxs hys).1

/-- Leaving out the products with a zero factor changes nothing. -/
theorem dot_le_iff {xs ys : List α} (hxs : ∀ b ∈ xs, b ∈ factors) (hys : ∀ b ∈ ys, b ∈ factors)
    (hx : x ∈ terms) :
    d.le (d.dot xs ys) x ↔ ∀ p ∈ xs.zip ys, d.le (d.mul p.1 p.2) x := by
  obtain ⟨member, plain⟩ := law.annihilating.same_dot hxs hys
  have products := law.annihilating.products_term hxs hys
  rw [law.joins.le_iff_of_beq member (law.annihilating.total_term products) hx plain,
    law.total_le_iff products hx, List.forall_mem_map]

theorem add_mul_le (ha : a ∈ factors) (hb : b ∈ factors) (hc : c ∈ factors) (hx : x ∈ terms)
    (left : d.le (d.mul a c) x) (right : d.le (d.mul b c) x) : d.le (d.mul (d.add a b) c) x := by
  have hac := law.mul_term ha hc
  have hbc := law.mul_term hb hc
  have hsum := law.mul_term (law.add_factor ha hb) hc
  exact (law.joins.le_iff_of_beq hsum (law.add_term hac hbc) hx (law.add_mul ha hb hc)).mpr
    (law.joins.add_le hac hbc hx left right)

end Distributive

end Dioid

end TropicalAlgebra
