import Mathlib.Algebra.Ring.PUnit
import TropicalAlgebra.Proofs.Dioid.Lawful

/-!
# Semirings that may be trivial

The laws of a lawful dioid leave out one case: a dioid in which zero is one and all elements are
equal. Whether or not a dioid is trivial, its elements have values in an idempotent semiring.
-/

namespace TropicalAlgebra

namespace Dioid

variable {α : Type} [Scalar α]

/-- The laws of a lawful dioid except that zero differs from one. -/
structure IsSemiring (d : Dioid α) : Prop extends d.RespectsEquality where
  zero_mem : d.zero ∈ d
  one_mem : d.one ∈ d
  add_mem : ∀ {a b}, a ∈ d → b ∈ d → d.add a b ∈ d
  mul_mem : ∀ {a b}, a ∈ d → b ∈ d → d.mul a b ∈ d
  add_assoc : ∀ {a b c}, a ∈ d → b ∈ d → c ∈ d → d.add (d.add a b) c == d.add a (d.add b c)
  add_comm : ∀ {a b}, a ∈ d → b ∈ d → d.add a b == d.add b a
  add_idem : ∀ {a}, a ∈ d → d.add a a == a
  add_selects : ∀ {a b}, a ∈ d → b ∈ d → d.add a b == a ∨ d.add a b == b
  zero_add : ∀ {a}, a ∈ d → d.add d.zero a == a
  zero_mul : ∀ {a}, a ∈ d → d.mul d.zero a == d.zero
  mul_assoc : ∀ {a b c}, a ∈ d → b ∈ d → c ∈ d → d.mul (d.mul a b) c == d.mul a (d.mul b c)
  mul_comm : ∀ {a b}, a ∈ d → b ∈ d → d.mul a b == d.mul b a
  one_mul : ∀ {a}, a ∈ d → d.mul d.one a == a
  mul_add : ∀ {a b c}, a ∈ d → b ∈ d → c ∈ d →
    d.mul a (d.add b c) == d.add (d.mul a b) (d.mul a c)

theorem Lawful.isSemiring {d : Dioid α} (law : d.Lawful) : d.IsSemiring := { law with }

namespace IsSemiring

variable {d : Dioid α} (law : d.IsSemiring)

include law in
theorem lawful (distinct : ¬ d.zero == d.one) : d.Lawful := { law with zero_ne_one := distinct }

include law in
/-- Where zero is one, every element is `one ⊗ a`, hence `zero ⊗ a`, hence zero. -/
theorem eq_zero_of_zero_eq_one (same : d.zero == d.one) {a : α} (ha : a ∈ d) : a == d.zero := by
  have product : d.mul d.zero a == d.mul d.one a :=
    law.mul_congr law.zero_mem law.one_mem ha ha same (law.refl ha)
  have hzero := law.mul_mem law.zero_mem ha
  have hone := law.mul_mem law.one_mem ha
  have self : a == d.mul d.one a := law.symm hone ha (law.one_mul ha)
  have back : d.mul d.one a == d.mul d.zero a := law.symm hzero hone product
  exact law.trans ha hzero law.zero_mem (law.trans ha hone hzero self back) (law.zero_mul ha)

/-- The semiring with one element. -/
@[reducible] def singleValue : IdemCommSemiring Unit where
  __ := IdemSemiring.ofSemiring (fun _ : Unit => rfl)
  mul_comm _ _ := rfl

/-- All elements of a trivial dioid have one value. -/
def trivialValuation (same : d.zero == d.one) : d.Valuation Unit where
  value _ := ⟨⟩
  zero_mem := law.zero_mem
  one_mem := law.one_mem
  add_mem := law.add_mem
  mul_mem := law.mul_mem
  value_zero := rfl
  value_one := rfl
  value_add _ _ := rfl
  value_mul _ _ := rfl
  beq_iff ha hb := by
    have left := law.eq_zero_of_zero_eq_one same ha
    have right := law.symm hb law.zero_mem (law.eq_zero_of_zero_eq_one same hb)
    exact iff_of_true (law.trans ha law.zero_mem hb left right) rfl

include law in
/-- The elements of a semiring have values, the sum of two of which is one of the two. -/
theorem exists_valuation : ∃ (β : Type) (_ : IdemCommSemiring β) (_ : d.Valuation β),
    ∀ x y : β, x + y = x ∨ x + y = y := by
  by_cases same : d.zero == d.one
  · exact ⟨Unit, singleValue, law.trivialValuation same, fun _ _ => Or.inl rfl⟩
  · have distinct := law.lawful same
    exact ⟨distinct.Value, inferInstance, distinct.valuation, distinct.value_add_selects⟩

end IsSemiring

end Dioid

end TropicalAlgebra
