import TropicalAlgebra.Fitting.Fit
import TropicalAlgebra.Proofs.Matrix.Overflow

/-!
# Values of fits that leave the domain

Evaluation checks the powers of a point, but neither the products with the coefficients nor what
becomes of them. Overflow in a polynomial still shows in its value, which is then no element. In a
quotient only that of the numerator does; a denominator that overflows turns the quotient into zero.
-/

namespace TropicalAlgebra

open Outcome

variable {α : Type} [Scalar α] {d : Dioid α} {x v : α}

namespace Polynomial

variable {P : Polynomial α}

/-- Every term that is formed at `x` is an element. -/
def Inside (d : Dioid α) (P : Polynomial α) (x : α) : Prop :=
  ∀ m ∈ P.terms, d.isZero m.coefficient = false → ∀ t, m.value d x = .ok t → t ∈ d

/-- A value is the sum of the terms whose coefficients are not zero. -/
theorem exists_terms (computed : P.value d x = .ok v) :
    ∃ terms, d.sum terms = v ∧ ∀ t, t ∈ terms ↔
      ∃ m ∈ P.terms, d.isZero m.coefficient = false ∧ m.value d x = .ok t := by
  obtain ⟨terms, returned, total⟩ := bind_eq_ok_iff.mp computed
  refine ⟨terms, Except.ok.inj total, fun t => ?_⟩
  rw [mem_iff_of_mapM returned]
  simp only [List.mem_filter, Bool.not_eq_true', and_assoc]

end Polynomial

section Terms

variable {terms : Set α} (law : d.Exposing terms)

include law

/-- A term is the product of two elements, so it is among the scalars that are added. -/
theorem Monomial.exists_power {m : Monomial α} {t : α} (computed : m.value d x = .ok t) :
    ∃ p ∈ d, d.mul m.coefficient p = t := by
  obtain ⟨p, power, product⟩ := bind_eq_ok_iff.mp computed
  exact ⟨p, Dioid.pow_mem law.exchangeable.zero_mem law.exchangeable.one_mem power,
    Except.ok.inj product⟩

namespace Polynomial

variable {P : Polynomial α} (elements : ∀ c ∈ P.coefficients, c ∈ d)

include elements

/-- What holds of the products of two elements holds of the terms. -/
theorem forall_terms {Q : α → Prop} (product : ∀ {a b}, a ∈ d → b ∈ d → Q (d.mul a b)) {t : α}
    (formed : ∃ m ∈ P.terms, d.isZero m.coefficient = false ∧ m.value d x = .ok t) : Q t := by
  obtain ⟨m, hm, -, computed⟩ := formed
  obtain ⟨p, power, rfl⟩ := Monomial.exists_power law computed
  exact product (elements _ (List.mem_map_of_mem hm)) power

theorem value_mem_terms (computed : P.value d x = .ok v) : v ∈ terms := by
  obtain ⟨ts, rfl, formed⟩ := exists_terms computed
  refine law.distributive.sum_term fun t ht => ?_
  exact forall_terms law elements law.distributive.mul_term ((formed t).mp ht)

/-- A value is an element exactly if each of its terms is. -/
theorem value_mem_iff (computed : P.value d x = .ok v) : v ∈ d ↔ P.Inside d x := by
  obtain ⟨ts, rfl, formed⟩ := exists_terms computed
  have added : ∀ t ∈ ts, t ∈ terms := fun t ht =>
    forall_terms law elements law.distributive.mul_term ((formed t).mp ht)
  rw [law.sum_mem_iff added]
  constructor
  · intro inside m hm present t returned
    exact inside t ((formed t).mpr ⟨m, hm, present, returned⟩)
  · intro inside t ht
    obtain ⟨m, hm, present, returned⟩ := (formed t).mp ht
    exact inside m hm present t returned

end Polynomial

end Terms

theorem RationalFit.exists_values {f : RationalFit α} (computed : f.value d x = .ok v) :
    ∃ p q, f.numerator.value d x = .ok p ∧ f.denominator.value d x = .ok q ∧
      d.mul p (d.inv q) = v := by
  obtain ⟨p, numerator, rest⟩ := bind_eq_ok_iff.mp computed
  obtain ⟨q, denominator, quotient⟩ := bind_eq_ok_iff.mp rest
  exact ⟨p, q, numerator, denominator, Except.ok.inj quotient⟩

/-! ### The four algebras -/

section Binary64

open Binary64

variable {x v : Float}

/-- In min-times no value is the negative zero, whose inverse would be the negative infinity. -/
theorem Polynomial.positiveIfZero_value {P : Polynomial Float}
    (elements : ∀ c ∈ P.coefficients, c ∈ (Dioid.minTimes : Dioid Float))
    (computed : P.value .minTimes x = .ok v) : PositiveIfZero v := by
  have product {a b : Float} (ha : a ∈ (Dioid.minTimes : Dioid Float))
      (hb : b ∈ (Dioid.minTimes : Dioid Float)) : PositiveIfZero (Dioid.minTimes.mul a b) :=
    positiveIfZero_mul (Dioid.mem_minTimes_float.mp ha).2 (Dioid.mem_minTimes_float.mp hb).2
  have infinity : PositiveIfZero Scalar.infinity := by
    rw [PositiveIfZero, unpacked_infinity]
    simp
  obtain ⟨ts, rfl, formed⟩ := exists_terms computed
  refine Dioid.monotoneMinTimes.sum_induction infinity fun t ht => ?_
  exact forall_terms AlgebraName.minTimes.exposing elements product ((formed t).mp ht)

namespace RationalFit

variable (n : AlgebraName) {f : RationalFit Float}

/-- A numerator that overflows leaves no element. -/
theorem inside_of_value_mem (elements : ∀ c ∈ f.numerator.coefficients, c ∈ (n.dioid : Dioid Float))
    (computed : f.value n.dioid x = .ok v) (member : v ∈ (n.dioid : Dioid Float)) :
    f.numerator.Inside n.dioid x := by
  obtain ⟨p, q, numerator, -, rfl⟩ := exists_values computed
  have term := Polynomial.value_mem_terms n.exposing elements numerator
  exact (Polynomial.value_mem_iff n.exposing elements numerator).mp (n.mem_of_mul_mem term member)

/-- A denominator that overflows has zero as its inverse, so the quotient is zero. -/
theorem isZero_value (elements : ∀ c ∈ f.numerator.coefficients, c ∈ (n.dioid : Dioid Float))
    (elements' : ∀ c ∈ f.denominator.coefficients, c ∈ (n.dioid : Dioid Float))
    (computed : f.value n.dioid x = .ok v) (inside : f.numerator.Inside n.dioid x)
    (outside : ¬ f.denominator.Inside n.dioid x) : (n.dioid : Dioid Float).isZero v = true := by
  obtain ⟨p, q, numerator, denominator, rfl⟩ := exists_values computed
  have member := (Polynomial.value_mem_iff n.exposing elements numerator).mpr inside
  have escaped := mt (Polynomial.value_mem_iff n.exposing elements' denominator).mp outside
  have term := Polynomial.value_mem_terms n.exposing elements' denominator
  have vanishes := n.isZero_inv term ?_ escaped
  · exact n.exchangeable.isZero_mul member (n.exchangeable.mem_of_isZero vanishes) vanishes
  · rintro rfl
    exact Polynomial.positiveIfZero_value elements' denominator

/-- Where neither part overflows, the two values are elements, and only their quotient is open. -/
theorem exists_quotient (elements : ∀ c ∈ f.numerator.coefficients, c ∈ (n.dioid : Dioid Float))
    (elements' : ∀ c ∈ f.denominator.coefficients, c ∈ (n.dioid : Dioid Float))
    (computed : f.value n.dioid x = .ok v) (inside : f.numerator.Inside n.dioid x)
    (inside' : f.denominator.Inside n.dioid x) :
    ∃ p ∈ (n.dioid : Dioid Float), ∃ q ∈ (n.dioid : Dioid Float),
      f.numerator.value n.dioid x = .ok p ∧ f.denominator.value n.dioid x = .ok q ∧
      (v ∈ (n.dioid : Dioid Float) ↔
        n.dioid.mul p (n.dioid.inv q) ∈ (n.dioid : Dioid Float)) := by
  obtain ⟨p, q, numerator, denominator, rfl⟩ := exists_values computed
  have above := (Polynomial.value_mem_iff n.exposing elements numerator).mpr inside
  have below := (Polynomial.value_mem_iff n.exposing elements' denominator).mpr inside'
  exact ⟨p, above, q, below, numerator, denominator, Iff.rfl⟩

end RationalFit

/-- Which values are elements. Those of a polynomial are if all of its terms are. Those of a
quotient are not if a term of its numerator is not; they are zero if a term of its denominator is
not, and this goes unnoticed. If all terms are elements, so are the values of the two parts, and
those of the quotient are if the quotient of these is. -/
theorem evaluation_inside (n : AlgebraName) (x v : Float) :
    (∀ P : Polynomial Float, (∀ c ∈ P.coefficients, c ∈ (n.dioid : Dioid Float)) →
      P.value n.dioid x = .ok v → (v ∈ (n.dioid : Dioid Float) ↔ P.Inside n.dioid x)) ∧
    ∀ f : RationalFit Float, (∀ c ∈ f.numerator.coefficients, c ∈ (n.dioid : Dioid Float)) →
      (∀ c ∈ f.denominator.coefficients, c ∈ (n.dioid : Dioid Float)) →
      f.value n.dioid x = .ok v →
        (v ∈ (n.dioid : Dioid Float) → f.numerator.Inside n.dioid x) ∧
        (f.numerator.Inside n.dioid x → ¬ f.denominator.Inside n.dioid x →
          (n.dioid : Dioid Float).isZero v = true) ∧
        (f.numerator.Inside n.dioid x → f.denominator.Inside n.dioid x →
          ∃ p ∈ (n.dioid : Dioid Float), ∃ q ∈ (n.dioid : Dioid Float),
            f.numerator.value n.dioid x = .ok p ∧ f.denominator.value n.dioid x = .ok q ∧
            (v ∈ (n.dioid : Dioid Float) ↔
              n.dioid.mul p (n.dioid.inv q) ∈ (n.dioid : Dioid Float))) := by
  refine ⟨fun P elements computed => ?_, fun f elements elements' computed => ⟨?_, ?_, ?_⟩⟩
  · exact Polynomial.value_mem_iff n.exposing elements computed
  · exact RationalFit.inside_of_value_mem n elements computed
  · exact RationalFit.isZero_value n elements elements' computed
  · exact RationalFit.exists_quotient n elements elements' computed

/-- One linear term with a large coefficient. -/
def steep : Polynomial Float := ⟨[⟨1e308, 1⟩]⟩

/-- One level term. -/
def flat : Polynomial Float := ⟨[⟨0, 0⟩]⟩

/-- A quotient whose denominator grows too fast. -/
def vanishing : RationalFit Float := ⟨flat, steep, 0, .converged⟩

/-- At a large point the linear term overflows. So does the quotient by it, which becomes zero. -/
theorem evaluation_inside_steep :
    ¬ steep.Inside .maxPlus 1e308 ∧ vanishing.value .maxPlus 1e308 = .ok Scalar.negInfinity ∧
      Dioid.maxPlus.isZero (Scalar.negInfinity : Float) = true := by
  have overflow : steep.value .maxPlus 1e308 = .ok Scalar.infinity := by decide +kernel
  have level : flat.value .maxPlus 1e308 = .ok 0 := by decide +kernel
  have quotient : vanishing.value .maxPlus 1e308 = .ok Scalar.negInfinity := by decide +kernel
  have large : ∀ c ∈ steep.coefficients, c ∈ (Dioid.maxPlus : Dioid Float) := by decide +kernel
  have small : ∀ c ∈ flat.coefficients, c ∈ (Dioid.maxPlus : Dioid Float) := by decide +kernel
  have outside : ¬ steep.Inside .maxPlus 1e308 :=
    mt ((evaluation_inside .maxPlus 1e308 Scalar.infinity).1 steep large overflow).mpr
      (by decide +kernel)
  have inside : flat.Inside .maxPlus 1e308 :=
    ((evaluation_inside .maxPlus 1e308 0).1 flat small level).mp (by decide +kernel)
  have unnoticed := (evaluation_inside .maxPlus 1e308 Scalar.negInfinity).2 vanishing small large
    quotient
  exact ⟨outside, quotient, unnoticed.2.1 inside outside⟩

/-- The value of a polynomial whose coefficient is an element need not be one. -/
theorem value_not_mem_steep :
    (∀ c ∈ [1e308], c ∈ (Dioid.maxPlus : Dioid Float)) ∧
      (do (← Polynomial.ofColumn (.singleton 1e308) ⟨1, 1, 1⟩).value .maxPlus 1e308) =
        .ok (Scalar.infinity : Float) ∧
      Scalar.infinity ∉ (Dioid.maxPlus : Dioid Float) := by
  decide +kernel

end Binary64

end TropicalAlgebra
