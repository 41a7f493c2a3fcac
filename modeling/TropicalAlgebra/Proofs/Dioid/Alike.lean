import Mathlib.Data.Set.Defs
import TropicalAlgebra.Closure.Trace
import TropicalAlgebra.Proofs.Outcome

/-!
# Dioids that compute alike

Two dioids are alike along a relation of scalars if related operands give related results and pass
the same tests. Whatever is computed from the operations of a dioid alone then comes out related.
-/

namespace TropicalAlgebra

variable {α : Type}

/-- Two scalars of `S` that are related by `R`. -/
def Among (S : Set α) (R : α → α → Prop) (a b : α) : Prop := a ∈ S ∧ b ∈ S ∧ R a b

theorem mem_of_among {S : Set α} {R : α → α → Prop} {xs ys : List α}
    (h : List.Forall₂ (Among S R) xs ys) : (∀ a ∈ xs, a ∈ S) ∧ ∀ b ∈ ys, b ∈ S := by
  obtain ⟨left, rest⟩ := (List.forall₂_and_left xs ys).mp h
  obtain ⟨right, -⟩ := (List.forall₂_and_left ys xs).mp rest.flip
  exact ⟨left, right⟩

variable [Scalar α]

namespace Dioid

/-- Related operands give related results in `d` and in `e`, and the tests that are made of scalars
do not tell related ones apart. Exponents and tolerances are the same on both sides. -/
structure Alike (R : α → α → Prop) (d e : Dioid α) : Prop where
  zero : R d.zero e.zero
  one : R d.one e.one
  one_mem : d.one ∈ d
  add : ∀ {a a' b b'}, R a a' → R b b' → R (d.add a b) (e.add a' b')
  mul : ∀ {a a' b b'}, R a a' → R b b' → R (d.mul a b) (e.mul a' b')
  rawPow : ∀ {a a'} (p : α), R a a' → R (d.rawPow a p) (e.rawPow a' p)
  inv : ∀ {a a'}, R a a' → R (d.inv a) (e.inv a')
  mem_iff : ∀ {a a'}, R a a' → (a ∈ d ↔ a' ∈ e)
  beq : ∀ {a a' b b'}, R a a' → R b b' → (a == b) = (a' == b')
  orderEq : ∀ {a a' b b'}, R a a' → R b b' → Scalar.orderEq a b = Scalar.orderEq a' b'
  approxEq : ∀ {a a' b b'} (tolerance : α), R a a' → R b b' →
    Scalar.approxEq tolerance a b = Scalar.approxEq tolerance a' b'

end Dioid

/-- The same error, with related scalars, on either side. -/
inductive Error.Alike (R : α → α → Prop) (d e : Dioid α) : Error α → Error α → Prop
  | shape (cause : ShapeError) : Alike R d e (.shape cause) (.shape cause)
  | domain {a a' : α} (related : R a a') : Alike R d e (d.domainError a) (e.domainError a')
  | notWellDefined {t t' : α} (related : R t t') :
      Alike R d e (.notWellDefined t d.one) (.notWellDefined t' e.one)
  | configuration (cause : ConfigurationError α) :
      Alike R d e (.configuration cause) (.configuration cause)

namespace Dioid.Alike

open Outcome List

variable {R : α → α → Prop} {d e : Dioid α} (alike : Dioid.Alike R d e) {a a' b b' p : α}
  {xs xs' ys ys' : List α}

include alike

theorem isZero (h : R a a') : d.isZero a = e.isZero a' := alike.beq h alike.zero

theorem dominates (h : R a a') (k : R b b') : d.dominates a b = e.dominates a' b' := by
  rw [Dioid.dominates, Dioid.dominates, bne, bne, alike.beq h k, alike.beq (alike.add h k) h]

theorem element (h : R a a') :
    Outcome.Alike (Error.Alike R d e) R (d.element a) (e.element a') := by
  by_cases member : a ∈ d
  · rw [element_of_mem member, element_of_mem ((alike.mem_iff h).mp member)]
    exact .ok h
  · rw [Dioid.element, Dioid.element, if_neg member, if_neg (mt (alike.mem_iff h).mpr member)]
    exact .error (.domain h)

theorem pow (h : R a a') (p : α) :
    Outcome.Alike (Error.Alike R d e) R (d.pow a p) (e.pow a' p) := by
  refine (alike.element h).bind fun {a a'} h => ?_
  rw [← alike.isZero h]
  split
  · split
    · exact .ok alike.zero
    · split
      · exact .ok alike.one
      · exact .error (.domain h)
  · exact alike.element (alike.rawPow p h)

/-! ### Sums and products of lists -/

theorem accumulate (h : R a a') (k : R b b') : R (d.accumulate a b) (e.accumulate a' b') := by
  unfold Dioid.accumulate
  rw [← alike.isZero h]
  split
  · exact k
  · exact alike.add h k

theorem sum (h : Forall₂ R xs xs') : R (d.sum xs) (e.sum xs') := by
  have kept : Forall₂ R (xs.filter fun a => !d.isZero a) (xs'.filter fun a => !e.isZero a) := by
    refine rel_filter (fun a a' k => ?_) h
    show (!d.isZero a) = true ↔ (!e.isZero a') = true
    rw [alike.isZero k]
  have step : (Relator.LiftFun R (Relator.LiftFun R R)) d.accumulate e.accumulate :=
    fun _ _ h _ _ k => alike.accumulate h k
  exact rel_foldl step alike.zero kept

theorem term? (h : R a a') (k : R b b') : Option.Rel R (d.term? (a, b)) (e.term? (a', b')) := by
  unfold Dioid.term?
  rw [alike.isZero h, alike.isZero k]
  split
  · exact .none
  · exact .some (alike.mul h k)

theorem terms (h : Forall₂ R xs xs') (k : Forall₂ R ys ys') :
    Forall₂ R ((xs.zip ys).filterMap d.term?) ((xs'.zip ys').filterMap e.term?) := by
  induction h generalizing ys ys' with
  | nil => exact .nil
  | cons first _ ih =>
    cases k with
    | nil => exact .nil
    | cons first' rest' =>
      have rest := ih rest'
      rw [List.zip_cons_cons, List.zip_cons_cons, List.filterMap_cons, List.filterMap_cons]
      generalize d.term? _ = t, e.term? _ = t', alike.term? first first' = related
      cases related with
      | none => exact rest
      | some product => exact .cons product rest

theorem dot (h : Forall₂ R xs xs') (k : Forall₂ R ys ys') : R (d.dot xs ys) (e.dot xs' ys') :=
  alike.sum (alike.terms h k)

theorem meanWeight {w w' : α × Nat} (h : R w.1 w'.1) (length : w.2 = w'.2) :
    Outcome.Alike (Error.Alike R d e) R (d.meanWeight w) (e.meanWeight w') := by
  unfold Dioid.meanWeight
  rw [← length]
  exact alike.pow h _

end Dioid.Alike

end TropicalAlgebra
