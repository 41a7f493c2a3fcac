import TropicalAlgebra.Closure.Sequence

/-!
# The fields of a sequence of partial sums

A sequence of partial sums is kept in fields that change one by one: the last power and the last sum,
how many sums there have been, and marks for having converged, failed or stopped. Both matrices are
taken out of their fields before the next sum is formed, and put back only if there is one. Fields
without matrices are also those of a sequence that has not begun, so nothing but the mark `done` keeps
a sequence that has ended from beginning anew.
-/

namespace TropicalAlgebra

/-- A sequence of partial sums of the powers of `base` as it is kept. -/
structure SumIterator (α : Type) where
  dioid : Dioid α
  base : Matrix α
  power : Option (Matrix α)
  total : Option (Matrix α)
  produced : Nat
  limit : Nat
  converged : Bool
  error : Option (Error α)
  done : Bool

/-- The fields before the first sum. -/
def Matrix.sumIterator {α : Type} (d : Dioid α) (M : Matrix α) : Outcome α (SumIterator α) := do
  M.requireSquare
  pure ⟨d, M, none, none, 0, ClosureSequence.defaultLimit, false, none, false⟩

namespace SumIterator

variable {α : Type}

def withLimit (t : SumIterator α) (limit : Nat) : SumIterator α := { t with limit }

/-- The fields with both matrices taken out. -/
def taken (t : SumIterator α) : SumIterator α := { t with power := none, total := none }

def put (t : SumIterator α) (power total : Matrix α) : SumIterator α :=
  { t with power := some power, total := some total }

variable [Scalar α]

/-- The next sum, or none if it repeats the one before it, and the fields with the matrices moved. -/
def advance (t : SumIterator α) : Outcome α (Option (Matrix α)) × SumIterator α :=
  match t.power, t.total with
  | some power, some total =>
      match power.mul t.dioid t.base with
      | .error cause => (.error cause, t.taken)
      | .ok power =>
          match total.add t.dioid power with
          | .error cause => (.error cause, t.taken)
          | .ok next =>
              if next.orderEq total then (.ok none, { t.taken with converged := true })
              else (.ok (some next), t.taken.put power next)
  | _, _ =>
      match Matrix.identity t.dioid t.base.rows with
      | .error cause => (.error cause, t.taken)
      | .ok identity => (.ok (some identity), t.taken.put identity identity)

omit [Scalar α] in
/-- Counts a sum that is handed out, and marks the end if there is none. -/
def record : Outcome α (Option (Matrix α)) × SumIterator α → Option (Matrix α) × SumIterator α
  | (.ok (some total), t) => (some total, { t with produced := t.produced + 1 })
  | (.ok none, t) => (none, { t with done := true })
  | (.error cause, t) => (none, { t with error := some cause, done := true })

/-- The next sum, if there is one, and the fields after it. -/
def next (t : SumIterator α) : Option (Matrix α) × SumIterator α :=
  if t.done || decide (t.limit ≤ t.produced) then (none, { t with done := true })
  else record t.advance

end SumIterator

end TropicalAlgebra
