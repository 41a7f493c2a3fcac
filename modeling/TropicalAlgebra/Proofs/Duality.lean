import TropicalAlgebra.Proofs.Closure.Alike
import TropicalAlgebra.Proofs.Dioid.Signs
import TropicalAlgebra.Proofs.Fitting.Alike

/-!
# Duality of max-plus and min-plus

Negating all scalars turns every computation in max-plus into the same computation in min-plus: each
operation fails where the other does, or has the negative result after the same number of steps.
Nothing depends on which of the two ends of the order counts as zero.
-/

namespace TropicalAlgebra

variable {α : Type} [Scalar α]

/-! ### Negatives -/

/-- `b` is the negative of `a`, up to the sign of zero, or neither is a number. -/
def Scalar.Opposite (a b : α) : Prop :=
  -a == b ∨ Scalar.isNumber a = false ∧ Scalar.isNumber b = false

def Matrix.negated (M : Matrix α) : Matrix α := M.map fun a => -a

/-- The negated coefficients with the same exponents. -/
def Polynomial.negated (P : Polynomial α) : Polynomial α :=
  ⟨P.terms.map fun m => ⟨-m.coefficient, m.exponent⟩⟩

def RationalFit.negated (f : RationalFit α) : RationalFit α :=
  ⟨f.numerator.negated, f.denominator.negated, -f.gap, f.termination⟩

def Samples.negated (s : Samples α) : Samples α :=
  ⟨s.points.map fun a => -a, s.values.map fun a => -a⟩

/-- The same tolerance and number of rounds, from the negated vector. -/
def TwoSided.Settings.negated (s : Settings α) : Settings α :=
  { s with initial := s.initial.map Matrix.negated }

/-! ### Dual dioids -/

/-- What a caller sees of two copies of a sequence: their answers, and how they have ended. -/
structure ClosureSequence.Copy.LooksAlike (R : α → α → Prop) (d e : Dioid α) (c c' : Copy α) :
    Prop where
  answers : List.Forall₂ (Option.Rel (Matrix.Alike R)) c.answers c'.answers
  produced : c.state.produced = c'.state.produced
  converged : c.state.converged = c'.state.converged
  error? : Option.Rel (Error.Alike R d e) c.state.error? c'.state.error?

/-- Both fail, with negative scalars in the error, or both have results related by `S`. -/
abbrev Outcome.Opposite {β : Type} (d e : Dioid α) (S : β → β → Prop) :
    Outcome α β → Outcome α β → Prop :=
  Outcome.Alike (Error.Alike Scalar.Opposite d e) S

namespace Dioid

open Scalar Outcome TwoSided ClosureSequence

/-- Every operation over `e` on negated operands has the negative outcome of the operation over `d`.
Exponents, tolerances and counts are the same. -/
structure Dual (d e : Dioid α) : Prop where
  mul : ∀ A B : Matrix α, Outcome.Opposite d e (Matrix.Alike Opposite) (A.mul d B)
    (A.negated.mul e B.negated)
  scale : ∀ (A : Matrix α) (a : α), Outcome.Opposite d e (Matrix.Alike Opposite) (A.scale d a)
    (A.negated.scale e (-a))
  add : ∀ A B : Matrix α, Outcome.Opposite d e (Matrix.Alike Opposite) (A.add d B)
    (A.negated.add e B.negated)
  pseudoInverse : ∀ M : Matrix α,
    (M.pseudoInverse d).Alike Opposite (M.negated.pseudoInverse e)
  powers : ∀ (M : Matrix α) (n : Nat) (withIdentity : Bool),
    Outcome.Opposite d e (Powers.Alike Opposite) (M.powers d n withIdentity)
      (M.negated.powers e n withIdentity)
  trace : ∀ M : Matrix α, Outcome.Opposite d e Opposite (M.trace d) (M.negated.trace e)
  traceSum : ∀ M : Matrix α, Outcome.Opposite d e Opposite (M.traceSum d) (M.negated.traceSum e)
  spectralRadius : ∀ M : Matrix α,
    Outcome.Opposite d e Opposite (M.spectralRadius d) (M.negated.spectralRadius e)
  star : ∀ M : Matrix α,
    Outcome.Opposite d e (Matrix.Alike Opposite) (M.star d) (M.negated.star e)
  closure : ∀ (M : Matrix α) (highest : Option Nat),
    Outcome.Opposite d e (Closure.Alike Opposite) (M.closure d highest)
      (M.negated.closure e highest)
  /-- Whatever calls the copies of a sequence receive. -/
  closureSequence : ∀ (M : Matrix α) (calls : List Call),
    Outcome.Opposite d e
      (fun s s' => List.Forall₂ (Copy.LooksAlike Opposite d e) (copies s calls) (copies s' calls))
      (M.closureSequence d) (M.negated.closureSequence e)
  solve : ∀ (s : Settings α) (A B : Matrix α),
    Outcome.Opposite d e (Solution.Alike (Matrix.Alike Opposite) Opposite) (s.solve d A B)
      (s.negated.solve e A.negated B.negated)
  fitPolynomial : ∀ (s : Samples α) (range : ExponentRange),
    Outcome.Opposite d e (PolynomialFit.Alike Opposite) (s.fitPolynomial d range)
      (s.negated.fitPolynomial e range)
  fitRational : ∀ (s : Samples α) (range : ExponentRange),
    Outcome.Opposite d e (RationalFit.Alike Opposite) (s.fitRational d range)
      (s.negated.fitRational e range)
  polynomialValue : ∀ (P : Polynomial α) (x : α),
    Outcome.Opposite d e Opposite (P.value d x) (P.negated.value e (-x))
  rationalValue : ∀ (f : RationalFit α) (x : α),
    Outcome.Opposite d e Opposite (f.value d x) (f.negated.value e (-x))

/-- Dioids are dual if their operations on scalars are. -/
theorem Alike.dual {d e : Dioid α} (alike : Alike Opposite d e)
    (negative : ∀ a : α, Opposite a (-a)) : Dual d e := by
  have matrix (M : Matrix α) : M.Alike Opposite M.negated := .of_map negative M
  have list (xs : List α) : List.Forall₂ Opposite xs (xs.map fun a => -a) := by
    rw [List.forall₂_map_right_iff]
    exact List.forall₂_same.mpr fun a _ => negative a
  have samples (s : Samples α) : s.Alike Opposite s.negated := ⟨list _, list _⟩
  have polynomial (P : Polynomial α) : P.Alike Opposite P.negated :=
    List.forall₂_map_right_iff.mpr (List.forall₂_same.mpr fun m _ => ⟨negative _, rfl⟩)
  have rational (f : RationalFit α) : f.Alike Opposite f.negated :=
    ⟨polynomial _, polynomial _, negative _, rfl⟩
  have settings (s : Settings α) : s.Alike Opposite s.negated := by
    refine ⟨?_, rfl, rfl⟩
    show Option.Rel (Matrix.Alike Opposite) s.initial (s.initial.map Matrix.negated)
    cases s.initial with
    | none => exact .none
    | some x => exact .some (matrix x)
  exact {
    mul A B := alike.matrixMul (matrix A) (matrix B)
    scale A a := alike.scale (matrix A) (negative a)
    add A B := alike.matrixAdd (matrix A) (matrix B)
    pseudoInverse M := alike.pseudoInverse (matrix M)
    powers M := alike.powers (matrix M)
    trace M := alike.trace (matrix M)
    traceSum M := alike.traceSum (matrix M)
    spectralRadius M := alike.spectralRadius (matrix M)
    star M := alike.star (matrix M)
    closure M := alike.closure (matrix M)
    closureSequence M calls := by
      refine ((matrix M).closureSequence d e).mono id fun started => ?_
      refine (alike.copies started calls).imp fun c c' related => ?_
      exact ⟨related.answers, related.state.produced, related.state.converged,
        related.state.error?⟩
    solve s A B := alike.solve (settings s) (matrix A) (matrix B)
    fitPolynomial s := alike.fitPolynomial (samples s)
    fitRational s := alike.fitRational (samples s)
    polynomialValue P x := alike.polynomialValue (polynomial P) (negative x)
    rationalValue f x := alike.rationalValue (rational f) (negative x) }

end Dioid

/-! ### Over floating-point numbers -/

theorem Binary64.opposite_iff {a b : Float} : Scalar.Opposite a b ↔ Turned .negative a b := by
  rw [Scalar.Opposite, beq_iff, isNumber_neg, levelOf_neg, ← Bool.not_eq_true, ← Bool.not_eq_true,
    isNumber_iff, isNumber_iff]
  constructor
  · rintro (⟨left, right, level⟩ | ⟨left, right⟩)
    · exact ⟨iff_of_true left right, level.symm⟩
    · refine ⟨iff_of_false left right, ?_⟩
      rw [levelOf_of_not_isNumber left, levelOf_of_not_isNumber right]
      rfl
  · rintro ⟨numbers, level⟩
    by_cases left : IsNumber a
    · exact .inl ⟨left, numbers.mp left, level.symm⟩
    · exact .inr ⟨left, mt numbers.mpr left⟩

/-- Min-plus is the dual of max-plus. -/
theorem Dioid.maxPlus_dual_minPlus : (maxPlus : Dioid Float).Dual minPlus := by
  have same : (Scalar.Opposite : Float → Float → Prop) = Binary64.Turned .negative := by
    funext a b
    exact propext Binary64.opposite_iff
  have alike : Alike Scalar.Opposite (maxPlus : Dioid Float) minPlus := same ▸ alike_dual
  exact alike.dual fun a => Binary64.opposite_iff.mpr (Binary64.turned_neg a)

end TropicalAlgebra
