import TropicalAlgebra.Closure.Iterator
import TropicalAlgebra.Proofs.Storage.Closure

/-!
# Sequences of partial sums of stored cells

A sequence keeps the last power and the last sum, if it has handed out one, and goes on from them.
Its fields are held if its matrices are, and every call keeps them so, however the limit changes on
the way. A power or a sum that is refused ends the sequence, and nothing else goes wrong.
-/

namespace TropicalAlgebra

open Access Stored

variable {α : Type}

/-- The fields of a sequence of partial sums of the powers of `base`. -/
structure StoredIterator (α : Type) where
  dioid : Dioid α
  base : Stored α
  power : Option (Stored α)
  total : Option (Stored α)
  produced : Nat
  limit : Nat
  converged : Bool
  error : Option (Error α)
  done : Bool

/-- The fields before the first sum. -/
def Stored.sumIterator (d : Dioid α) (S : Stored α) : Access α (StoredIterator α) := do
  S.requireSquare
  pure ⟨d, S, none, none, 0, ClosureSequence.defaultLimit, false, none, false⟩

namespace StoredIterator

def withLimit (t : StoredIterator α) (limit : Nat) : StoredIterator α := { t with limit }

/-- The fields with both matrices taken out. -/
def taken (t : StoredIterator α) : StoredIterator α := { t with power := none, total := none }

def put (t : StoredIterator α) (power total : Stored α) : StoredIterator α :=
  { t with power := some power, total := some total }

/-- Counts a sum that is handed out, and marks the end if there is none. -/
def record : Outcome α (Option (Stored α)) × StoredIterator α →
    Option (Stored α) × StoredIterator α
  | (.ok (some total), t) => (some total, { t with produced := t.produced + 1 })
  | (.ok none, t) => (none, { t with done := true })
  | (.error cause, t) => (none, { t with error := some cause, done := true })

variable (w : Overflow)

/-- The first sum, and the fields with it in both places. -/
def start (t : StoredIterator α) :
    Access α (Outcome α (Option (Stored α)) × StoredIterator α) := do
  match ← attempt (identity w t.dioid t.base.rows) with
  | .error cause => pure (.error cause, t.taken)
  | .ok identity => pure (.ok (some identity), t.taken.put identity identity)

variable [Scalar α]

/-- The sum after `total`, or none if it repeats `total`, and the fields with the matrices moved. -/
def extend (t : StoredIterator α) (power total : Stored α) :
    Access α (Outcome α (Option (Stored α)) × StoredIterator α) := do
  match ← attempt (power.mul w t.dioid t.base) with
  | .error cause => pure (.error cause, t.taken)
  | .ok power =>
      match ← attempt (total.add t.dioid power) with
      | .error cause => pure (.error cause, t.taken)
      | .ok next =>
          if next.all₂ Scalar.orderEq total then
            pure (.ok none, { t.taken with converged := true })
          else pure (.ok (some next), t.taken.put power next)

def advance (t : StoredIterator α) :
    Access α (Outcome α (Option (Stored α)) × StoredIterator α) :=
  match t.power, t.total with
  | some power, some total => t.extend w power total
  | _, _ => t.start w

/-- The next sum, if there is one, and the fields after it. -/
def next (t : StoredIterator α) : Access α (Option (Stored α) × StoredIterator α) :=
  if t.done || decide (t.limit ≤ t.produced) then pure (none, { t with done := true })
  else do
    let advanced ← t.advance w
    pure (record advanced)

/-- The sums that are handed out while the limit takes these values, one at each call. -/
def itemsUnder : List Nat → StoredIterator α → Access α (List (Stored α))
  | [], _ => pure []
  | limit :: limits, t => do
      let (total?, after) ← (t.withLimit limit).next w
      let items ← itemsUnder limits after
      pure (total?.toList ++ items)

end StoredIterator

namespace SumIterator

/-- The sums that are handed out while the limit takes these values, one at each call. -/
def itemsUnder [Scalar α] : List Nat → SumIterator α → List (Matrix α)
  | [], _ => []
  | limit :: limits, t =>
      (t.withLimit limit).next.1.toList ++ itemsUnder limits (t.withLimit limit).next.2

/-- All matrices are held as `n × n` matrices, and the other fields agree. -/
structure HeldAs (n : Nat) (t : SumIterator α) (u : StoredIterator α) : Prop where
  dioid : u.dioid = t.dioid
  base : t.base.HeldAs n n u.base
  power : Option.Rel (Matrix.HeldAs n n) t.power u.power
  total : Option.Rel (Matrix.HeldAs n n) t.total u.total
  produced : u.produced = t.produced
  limit : u.limit = t.limit
  converged : u.converged = t.converged
  error : u.error = t.error
  done : u.done = t.done

/-- Both fields are held after a sum has been formed or refused, and so is the sum. -/
def HeldAdvanced (n : Nat) (r : Outcome α (Option (Matrix α)) × SumIterator α)
    (r' : Outcome α (Option (Stored α)) × StoredIterator α) : Prop :=
  Outcome.Alike (· = ·) (Option.Rel (Matrix.HeldAs n n)) r.1 r'.1 ∧ r.2.HeldAs n r'.2

/-- Both fields are held after a call, and so is the sum that is handed out. -/
def HeldAfter (n : Nat) (r : Option (Matrix α) × SumIterator α)
    (r' : Option (Stored α) × StoredIterator α) : Prop :=
  Option.Rel (Matrix.HeldAs n n) r.1 r'.1 ∧ r.2.HeldAs n r'.2

namespace HeldAs

variable {t : SumIterator α} {u : StoredIterator α} {n : Nat} {A B : Matrix α} {S T : Stored α}

theorem withLimit (held : t.HeldAs n u) (limit : Nat) :
    (t.withLimit limit).HeldAs n (u.withLimit limit) :=
  { held with limit := rfl }

theorem taken (held : t.HeldAs n u) : t.taken.HeldAs n u.taken :=
  { held with power := .none, total := .none }

theorem put (held : t.HeldAs n u) (power : A.HeldAs n n S) (total : B.HeldAs n n T) :
    (t.put A B).HeldAs n (u.put S T) :=
  { held with power := .some power, total := .some total }

theorem record {r : Outcome α (Option (Matrix α)) × SumIterator α}
    {r' : Outcome α (Option (Stored α)) × StoredIterator α} (advanced : HeldAdvanced n r r') :
    HeldAfter n (SumIterator.record r) (StoredIterator.record r') := by
  obtain ⟨x, t⟩ := r
  obtain ⟨x', u⟩ := r'
  obtain ⟨alike, held⟩ := advanced
  cases alike with
  | error same => exact ⟨.none, { held with error := congrArg some same.symm, done := rfl }⟩
  | ok related =>
    cases related with
    | none => exact ⟨.none, { held with done := rfl }⟩
    | some total =>
      exact ⟨.some total, { held with produced := congrArg (· + 1) held.produced }⟩

variable {w : Overflow}

theorem start (held : t.HeldAs n u) :
    Renders (HeldAdvanced n) (u.start w) (.ok (match Matrix.identity t.dioid t.base.rows with
      | .error cause => (.error cause, t.taken)
      | .ok identity => (.ok (some identity), t.taken.put identity identity))) := by
  have rows : u.base.rows = n := by rw [held.base.stored, Matrix.rows_stored, held.base.rows]
  obtain ⟨z, attempted, alike⟩ :=
    (renders_identity (w := w) t.dioid held.base.fits_shape).attempt
  rw [StoredIterator.start, held.dioid, rows, attempted, ok_bind, held.base.rows]
  generalize Matrix.identity t.dioid n = y at alike
  cases alike with
  | error same => exact .ok ⟨.error same, held.taken⟩
  | ok one => exact .ok ⟨.ok (.some one), held.taken.put one one⟩

variable [Scalar α]

theorem extend (held : t.HeldAs n u) (power : A.HeldAs n n S) (total : B.HeldAs n n T) :
    Renders (HeldAdvanced n) (u.extend w S T) (.ok (match A.mul t.dioid t.base with
      | .error cause => (.error cause, t.taken)
      | .ok power =>
          match B.add t.dioid power with
          | .error cause => (.error cause, t.taken)
          | .ok next =>
              if next.orderEq B then (.ok none, { t.taken with converged := true })
              else (.ok (some next), t.taken.put power next))) := by
  obtain ⟨z, attempted, alike⟩ :=
    (renders_product (w := w) t.dioid power held.base held.base.fits_shape).attempt
  rw [StoredIterator.extend, held.dioid, attempted, ok_bind]
  generalize A.mul t.dioid t.base = y at alike
  cases alike with
  | error same => exact .ok ⟨.error same, held.taken⟩
  | @ok C U next =>
    obtain ⟨z, attempted, alike⟩ := (renders_add t.dioid total next.toHeldIn).attempt
    simp only [attempted, ok_bind]
    generalize B.add t.dioid C = y at alike
    cases alike with
    | error same => exact .ok ⟨.error same, held.taken⟩
    | @ok D V sum =>
      have repeats : V.all₂ Scalar.orderEq T = D.orderEq B := by
        rw [sum.stored, total.stored]
        rfl
      simp only [repeats]
      split
      · exact .ok ⟨.ok .none, { held.taken with converged := rfl }⟩
      · exact .ok ⟨.ok (.some sum), held.taken.put next sum⟩

theorem advance (held : t.HeldAs n u) :
    Renders (HeldAdvanced n) (u.advance w) (.ok t.advance) := by
  have power := held.power
  have total := held.total
  unfold StoredIterator.advance SumIterator.advance
  generalize t.power = p, u.power = p' at power
  generalize t.total = q, u.total = q' at total
  -- only fields with both matrices go on from them
  cases power with
  | none =>
    cases total with
    | none => exact held.start
    | some _ => exact held.start
  | some power =>
    cases total with
    | none => exact held.start
    | some total => exact held.extend power total

/-- One call. -/
theorem next (held : t.HeldAs n u) : Renders (HeldAfter n) (u.next w) (.ok t.next) := by
  have stop : (u.done || decide (u.limit ≤ u.produced)) =
      (t.done || decide (t.limit ≤ t.produced)) := by
    rw [held.done, held.limit, held.produced]
  unfold StoredIterator.next SumIterator.next
  rw [stop]
  split
  · exact .ok ⟨.none, { held with done := rfl }⟩
  · exact held.advance.bind_ok fun advanced => .ok (record advanced)

theorem itemsUnder (held : t.HeldAs n u) (limits : List Nat) :
    Renders (List.Forall₂ (Matrix.HeldAs n n)) (u.itemsUnder w limits)
      (.ok (t.itemsUnder limits)) := by
  induction limits generalizing t u with
  | nil => exact .ok .nil
  | cons limit limits ih =>
    refine (held.withLimit limit).next.bind_ok fun {r} after => ?_
    exact (ih after.2).bind_ok fun items => .ok (List.rel_append (forall₂_toList after.1) items)

end HeldAs

end SumIterator

theorem Stored.renders_sumIterator (d : Dioid α) {M : Matrix α} {S : Stored α} (held : M.HeldIn S) :
    Renders (SumIterator.HeldAs M.rows) (S.sumIterator d) (M.sumIterator d) :=
  (renders_requireSquare held).bind fun square =>
    .ok ⟨rfl, square, .none, .none, rfl, rfl, rfl, rfl, rfl⟩

end TropicalAlgebra
