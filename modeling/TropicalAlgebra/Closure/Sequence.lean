import TropicalAlgebra.Closure.Star
import TropicalAlgebra.Matrix.Text

/-!
# The closure as a sequence of partial sums

The sums `I`, `I ⊕ M`, `I ⊕ M ⊕ M²`, … of the powers of a square matrix, handed out one by one. The
sequence ends when a sum repeats its predecessor, when as many sums have been handed out as the
limit allows, or when the next sum cannot be formed. Once it has ended it stays so, even if the
limit is raised.
-/

namespace TropicalAlgebra

/-- Why a sequence of partial sums has ended. -/
inductive Ending (α : Type) where
  | converged
  | limit
  | failed (cause : Error α)

/-- How far a sequence of partial sums has come. -/
inductive Progress (α : Type) where
  /-- Nothing has been handed out. -/
  | fresh
  /-- The last sum handed out, and the last power in it. -/
  | running (power total : Matrix α)
  | ended (ending : Ending α)

/-- A sequence of partial sums of the powers of `base`, and how far it has come. -/
structure ClosureSequence (α : Type) where
  dioid : Dioid α
  base : Matrix α
  square : base.isSquare = true
  limit : Nat
  produced : Nat
  progress : Progress α

namespace ClosureSequence

variable {α : Type}

/-- The number of sums that a sequence hands out unless told otherwise. -/
def defaultLimit : Nat := 10000

def withLimit (s : ClosureSequence α) (limit : Nat) : ClosureSequence α := { s with limit }

def converged (s : ClosureSequence α) : Bool :=
  match s.progress with
  | .ended .converged => true
  | _ => false

theorem converged_iff {s : ClosureSequence α} :
    s.converged = true ↔ s.progress = .ended .converged := by
  unfold ClosureSequence.converged
  split
  next progress => simp [progress]
  next other => exact iff_of_false Bool.false_ne_true other

def error? (s : ClosureSequence α) : Option (Error α) :=
  match s.progress with
  | .ended (.failed cause) => some cause
  | _ => none

theorem error?_eq_some_iff {s : ClosureSequence α} {cause : Error α} :
    s.error? = some cause ↔ s.progress = .ended (.failed cause) := by
  unfold ClosureSequence.error?
  split
  next progress => simp [progress]
  next other => exact iff_of_false (Option.some_ne_none cause).symm (other cause)

def finish (s : ClosureSequence α) (ending : Ending α) : ClosureSequence α :=
  { s with progress := .ended ending }

/-- The sequence after it has handed out `total`, whose last power is `power`. -/
def yield (s : ClosureSequence α) (power total : Matrix α) : ClosureSequence α :=
  { s with produced := s.produced + 1, progress := .running power total }

@[simp] theorem limit_yield (s : ClosureSequence α) (power total : Matrix α) :
    (s.yield power total).limit = s.limit := rfl

@[simp] theorem produced_yield (s : ClosureSequence α) (power total : Matrix α) :
    (s.yield power total).produced = s.produced + 1 := rfl

@[simp] theorem progress_yield (s : ClosureSequence α) (power total : Matrix α) :
    (s.yield power total).progress = .running power total := rfl

/-- The first sum. -/
def identity (s : ClosureSequence α) : Matrix α :=
  Matrix.identityOfPos s.dioid s.base.rows s.base.rows_pos

variable [Scalar α]

def extend (s : ClosureSequence α) (power total : Matrix α) :
    Outcome α (Matrix α × Matrix α) := do
  let power ← power.mul s.dioid s.base
  let total ← total.add s.dioid power
  pure (power, total)

/-- The next sum, if there is one, and the sequence after it. -/
def next (s : ClosureSequence α) : Option (Matrix α) × ClosureSequence α :=
  match s.progress with
  | .ended _ => (none, s)
  | .fresh =>
      if s.limit ≤ s.produced then (none, s.finish .limit)
      else
        let identity := s.identity
        (some identity, s.yield identity identity)
  | .running power total =>
      if s.limit ≤ s.produced then (none, s.finish .limit)
      else
        match s.extend power total with
        | .error cause => (none, s.finish (.failed cause))
        | .ok (nextPower, nextTotal) =>
            -- a sum that repeats its predecessor is not handed out
            if nextTotal.orderEq total then (none, s.finish .converged)
            else (some nextTotal, s.yield nextPower nextTotal)

/-- Take sums until there are none, at most `count` times, and keep the last. -/
def drainUpTo : Nat → Option (Matrix α) → ClosureSequence α →
    Option (Matrix α) × ClosureSequence α
  | 0, last, s => (last, s)
  | count + 1, last, s =>
      match s.next with
      | (none, s) => (last, s)
      | (some total, s) => drainUpTo count (some total) s

/-- Take all sums that are left and keep the last. The limit bounds their number. -/
def drain (s : ClosureSequence α) : Option (Matrix α) × ClosureSequence α :=
  s.drainUpTo (s.limit - s.produced + 1) none

end ClosureSequence

/-- The partial sums of the powers of a square matrix, from the beginning. -/
def Matrix.closureSequence {α : Type} (d : Dioid α) (M : Matrix α) :
    Outcome α (ClosureSequence α) :=
  if square : M.isSquare then .ok ⟨d, M, square, ClosureSequence.defaultLimit, 0, .fresh⟩
  else .error (.shape (.notSquare M.shape))

theorem Matrix.closureSequence_fresh {α : Type} {d : Dioid α} {M : Matrix α}
    {start : ClosureSequence α} (begun : M.closureSequence d = .ok start) :
    start.progress = .fresh := by
  unfold closureSequence at begun
  split at begun
  · obtain rfl := Except.ok.inj begun
    rfl
  · simp at begun

theorem Matrix.rows_eq_cols {α : Type} {d : Dioid α} (M : Matrix α)
    {start : ClosureSequence α} (begun : M.closureSequence d = .ok start) : M.rows = M.cols := by
  unfold closureSequence at begun
  split at begun
  next square => exact beq_iff_eq.mp square
  next => simp at begun

end TropicalAlgebra
