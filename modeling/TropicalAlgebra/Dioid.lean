import TropicalAlgebra.Error

/-!
# Dioids

A dioid is a semiring whose sum is idempotent. Here it is a value: the operations over a scalar
type, its two distinguished elements and the set of scalars that count as its elements. The laws
are not part of the type, so that rounding arithmetic fits in as well.
-/

namespace TropicalAlgebra

/-- The operations of an idempotent semiring over the scalars `α`, and its domain. -/
structure Dioid (α : Type) where
  name : String
  /-- Neutral for the sum and absorbing for the product. -/
  zero : α
  /-- Neutral for the product. -/
  one : α
  add : α → α → α
  mul : α → α → α
  /-- The power of an element other than zero, without any check. -/
  rawPow : α → α → α
  /-- The multiplicative inverse; zero is sent to itself. -/
  inv : α → α
  /-- Whether a scalar is an element. -/
  contains : α → Bool

namespace Dioid

variable {α : Type}

/-- The elements of a dioid are the scalars of its domain. -/
instance : Membership α (Dioid α) := ⟨fun d a => d.contains a = true⟩

instance (d : Dioid α) (a : α) : Decidable (a ∈ d) :=
  inferInstanceAs (Decidable (d.contains a = true))

theorem mem_iff_contains (d : Dioid α) (a : α) : a ∈ d ↔ d.contains a = true := Iff.rfl

def domainError (d : Dioid α) (a : α) : Error α := .domain d.name a

/-- Accept `a` if it is an element. -/
def element (d : Dioid α) (a : α) : Outcome α α :=
  if a ∈ d then .ok a else .error (d.domainError a)

theorem element_of_mem {d : Dioid α} {a : α} (h : a ∈ d) : d.element a = .ok a := by
  simp [element, h]

theorem element_eq_ok_iff {d : Dioid α} {a b : α} : d.element a = .ok b ↔ a ∈ d ∧ a = b := by
  unfold element
  split
  next h => simp [h]
  next h => simp [h]

section Scalar

variable [Scalar α]

def isZero (d : Dioid α) (a : α) : Bool := a == d.zero

def isOne (d : Dioid α) (a : α) : Bool := a == d.one

/-- `a` strictly wins over `b` in a sum. -/
def dominates (d : Dioid α) (a b : α) : Bool := a != b && d.add a b == a

/-- The power `a ^ p`, provided that it exists and is an element. Zero has positive powers, which
are zero, and a power with exponent zero, which is one. -/
def pow (d : Dioid α) (a p : α) : Outcome α α := do
  let a ← d.element a
  if d.isZero a then
    if Scalar.ofInt 0 < p then .ok d.zero
    else if p == Scalar.ofInt 0 then .ok d.one
    else .error (d.domainError a)
  else d.element (d.rawPow a p)

/-- A power is an element, if zero and one are. -/
theorem pow_mem {d : Dioid α} (zero : d.zero ∈ d) (one : d.one ∈ d) {a b p : α}
    (computed : d.pow a p = .ok b) : b ∈ d := by
  obtain ⟨a, -, computed⟩ := bind_eq_ok_iff.mp computed
  split at computed
  · split at computed
    · exact Except.ok.inj computed ▸ zero
    · split at computed
      · exact Except.ok.inj computed ▸ one
      · simp at computed
  · obtain ⟨member, rfl⟩ := element_eq_ok_iff.mp computed
    exact member

/-- Add a term to a running sum in which zero stands for "no term yet". -/
def accumulate (d : Dioid α) (total term : α) : α :=
  if d.isZero total then term else d.add total term

/-- The sum of the terms that are not zero; zero if there is none. -/
def sum (d : Dioid α) (terms : List α) : α :=
  (terms.filter fun a => !d.isZero a).foldl d.accumulate d.zero

@[simp] theorem sum_nil (d : Dioid α) : d.sum [] = d.zero := rfl

/-- The product of two factors as a term of a sum; there is no term if a factor is zero. -/
def term? (d : Dioid α) (factors : α × α) : Option α :=
  if d.isZero factors.1 || d.isZero factors.2 then none else some (d.mul factors.1 factors.2)

/-- The sum of the products of matching entries. A product with a zero factor is never formed. -/
def dot (d : Dioid α) (xs ys : List α) : α := d.sum ((xs.zip ys).filterMap d.term?)

end Scalar

end Dioid

end TropicalAlgebra
