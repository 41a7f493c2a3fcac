import TropicalAlgebra.Matrix.Arithmetic

/-!
# Powers of a square matrix

A sequence of successive powers of a base, which grows by one multiplication at a time. The power
with exponent zero is always kept, but shown only on request.
-/

namespace TropicalAlgebra

/-- The powers of `base` with the exponents `0, …, highest`, where `highest` is at least one. -/
structure Powers (α : Type) where
  base : Matrix α
  withIdentity : Bool
  /-- The power with exponent `k` is entry `k`. -/
  terms : Array (Matrix α)
  two_le_size : 2 ≤ terms.size

namespace Powers

variable {α : Type}

def highest (P : Powers α) : Nat := P.terms.size - 1

def identity (P : Powers α) : Matrix α :=
  have := P.two_le_size
  P.terms[0]

def top (P : Powers α) : Matrix α :=
  have := P.two_le_size
  P.terms[P.terms.size - 1]

/-- The power with exponent `k`, if it is there and shown. -/
def power? (P : Powers α) (k : Nat) : Option (Matrix α) :=
  if k = 0 && !P.withIdentity then none else P.terms[k]?

/-- The powers with the exponents from one on. -/
def positive (P : Powers α) : List (Matrix α) := P.terms.toList.tail

def toList (P : Powers α) : List (Matrix α) :=
  if P.withIdentity then P.terms.toList else P.positive

def length (P : Powers α) : Nat := if P.withIdentity then P.terms.size else P.terms.size - 1

def isEmpty (P : Powers α) : Bool := P.length == 0

theorem length_toList (P : Powers α) : P.toList.length = P.length := by
  unfold toList length
  split <;> simp [positive]

def push (P : Powers α) (M : Matrix α) : Powers α :=
  { P with
    terms := P.terms.push M
    two_le_size := by have := P.two_le_size; simp; omega }

@[simp] theorem highest_push (P : Powers α) (M : Matrix α) :
    (P.push M).highest = P.highest + 1 := by
  have := P.two_le_size
  simp only [push, highest, Array.size_push]
  omega

variable [Scalar α] (d : Dioid α)

/-- The base itself, after the identity. -/
def first (base : Matrix α) (withIdentity : Bool) : Powers α :=
  ⟨base, withIdentity, #[Matrix.identityOfPos d base.rows base.rows_pos, base], by simp⟩

/-- One further power: the last one times the base. -/
def step (P : Powers α) : Outcome α (Powers α) := do
  let next ← P.top.mul d P.base
  pure (P.push next)

/-- As many further powers as `count` says. -/
def advance : Nat → Powers α → Outcome α (Powers α)
  | 0, P => pure P
  | count + 1, P => do advance count (← P.step d)

/-- A sequence that reaches at least the exponent `n`. -/
def extended (P : Powers α) (n : Nat) : Outcome α (Powers α) := P.advance d (n - P.highest)

/-- The sum of the powers with the exponents `0, …, k`, from left to right. -/
def sumUpTo (P : Powers α) (k : Nat) : Outcome α (Matrix α) :=
  (P.positive.take k).foldlM (Matrix.add d) P.identity

end Powers

/-- The powers of a square matrix up to the exponent `n`, which has to be positive. -/
def Matrix.powers {α : Type} [Scalar α] (d : Dioid α) (M : Matrix α) (n : Nat)
    (withIdentity : Bool) : Outcome α (Powers α) := do
  M.requireSquare
  require (n ≠ 0) (.configuration .noPowers)
  (Powers.first d M withIdentity).extended d n

end TropicalAlgebra
