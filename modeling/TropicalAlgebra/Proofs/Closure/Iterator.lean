import TropicalAlgebra.Closure.Iterator
import TropicalAlgebra.Dioid.Tropical
import TropicalAlgebra.Proofs.Closure.Clones
import TropicalAlgebra.Proofs.Outcome
import TropicalAlgebra.Proofs.Scalar.ExtendedRational

/-!
# The fields move as the sequence does

The fields of a sequence of partial sums admit combinations that mean nothing, and fields that have
lost their matrices look like those of a sequence that has not begun. Every call keeps the fields in
step with the sequence they stand for, so no call sees such a combination. What a sequence and its
clones answer is therefore what their fields answer, in whatever order the calls come.
-/

namespace TropicalAlgebra

namespace SumIterator

variable {α : Type}

/-- The fields say how far a sequence has come. Without a limit in the way a sequence ends with its
matrices taken out. -/
def Shows (t : SumIterator α) : Progress α → Prop
  | .fresh => t.power = none ∧ t.total = none ∧
      t.converged = false ∧ t.error = none ∧ t.done = false
  | .running power total => t.power = some power ∧ t.total = some total ∧
      t.converged = false ∧ t.error = none ∧ t.done = false
  | .ended .limit => t.converged = false ∧ t.error = none ∧ t.done = true
  | .ended .converged => t.power = none ∧ t.total = none ∧
      t.converged = true ∧ t.error = none ∧ t.done = true
  | .ended (.failed cause) => t.power = none ∧ t.total = none ∧
      t.converged = false ∧ t.error = some cause ∧ t.done = true

/-- The fields stand for a sequence. -/
structure Represents (t : SumIterator α) (s : ClosureSequence α) : Prop where
  dioid : t.dioid = s.dioid
  base : t.base = s.base
  produced : t.produced = s.produced
  limit : t.limit = s.limit
  progress : t.Shows s.progress

namespace Represents

variable {t : SumIterator α} {s : ClosureSequence α}

theorem withLimit (h : t.Represents s) (limit : Nat) :
    (t.withLimit limit).Represents (s.withLimit limit) :=
  { h with limit := rfl }

/-- A sequence that has ended has the mark that keeps its fields from beginning anew. -/
theorem done_of_ended (h : t.Represents s) {ending : Ending α} (ended : s.progress = .ended ending) :
    t.done = true := by
  have shown := h.progress
  rw [ended] at shown
  cases ending with
  | limit => exact shown.2.2
  | converged => exact shown.2.2.2.2
  | failed cause => exact shown.2.2.2.2

/-- The marks for having converged and failed are read off the progress. -/
theorem marks (h : t.Represents s) : t.converged = s.converged ∧ t.error = s.error? := by
  have shown := h.progress
  unfold ClosureSequence.converged ClosureSequence.error?
  cases progress : s.progress with
  | fresh =>
    rw [progress] at shown
    exact ⟨shown.2.2.1, shown.2.2.2.1⟩
  | running power total =>
    rw [progress] at shown
    exact ⟨shown.2.2.1, shown.2.2.2.1⟩
  | ended ending =>
    rw [progress] at shown
    cases ending with
    | limit => exact ⟨shown.1, shown.2.1⟩
    | converged => exact ⟨shown.2.2.1, shown.2.2.2.1⟩
    | failed cause => exact ⟨shown.2.2.1, shown.2.2.2.1⟩

end Represents

variable [Scalar α] {t : SumIterator α} {s : ClosureSequence α}

/-! ### One call -/

theorem next_of_done (done : t.done = true) : t.next.1 = none := by simp [next, done]

theorem next_of_full (full : t.limit ≤ t.produced) : t.next.1 = none := by simp [next, full]

theorem next_of_room (going : t.done = false) (room : t.produced < t.limit) :
    t.next = record t.advance := by
  rw [next, going, Bool.false_or, if_neg (by simpa using room)]

theorem Represents.advance_fresh (h : t.Represents s) (power : t.power = none) :
    t.advance = (.ok (some s.identity), t.taken.put s.identity s.identity) := by
  have identity : Matrix.identity t.dioid t.base.rows = .ok s.identity := by
    rw [h.dioid, h.base]
    exact dif_pos ⟨s.base.rows_pos, s.base.rows_pos⟩
  simp only [advance, power, identity]

theorem Represents.advance_running (h : t.Represents s) {power total : Matrix α}
    (progress : s.progress = .running power total) :
    t.advance = match s.extend power total with
      | .error cause => (.error cause, t.taken)
      | .ok (power, next) =>
          if next.orderEq total then (.ok none, { t.taken with converged := true })
          else (.ok (some next), t.taken.put power next) := by
  have shown := h.progress
  rw [progress] at shown
  simp only [advance, shown.1, shown.2.1, ClosureSequence.extend, h.dioid, h.base]
  cases power.mul s.dioid s.base with
  | error cause => rfl
  | ok power =>
    cases added : total.add s.dioid power with
    | error cause => simp [bind, Except.bind, added]
    | ok next => simp [bind, Except.bind, pure, Except.pure, added]

/-- A call that finds the sequence ended or at its limit marks it as done. -/
theorem next_of_stop (stop : t.done = true ∨ t.limit ≤ t.produced) :
    t.next = (none, { t with done := true }) := by
  rw [SumIterator.next, if_pos (by simpa using stop)]

/-- One call answers alike and keeps the fields in step. -/
theorem Represents.next (h : t.Represents s) :
    t.next.1 = s.next.1 ∧ t.next.2.Represents s.next.2 := by
  have shown := h.progress
  unfold ClosureSequence.next
  split
  next ending progress =>
    have done := h.done_of_ended progress
    have same : ({ t with done := true } : SumIterator α) = t := by rw [← done]
    rw [next_of_stop (.inl done), same]
    exact ⟨rfl, h⟩
  next progress =>
    rw [progress] at shown
    obtain ⟨power, total, converged, error, going⟩ := shown
    by_cases full : s.limit ≤ s.produced
    · rw [next_of_stop (.inr (by rwa [h.limit, h.produced])), if_pos full]
      exact ⟨rfl, { h with progress := ⟨converged, error, rfl⟩ }⟩
    · have room : t.produced < t.limit := by rw [h.limit, h.produced]; omega
      rw [next_of_room going room, h.advance_fresh power, if_neg full]
      exact ⟨rfl, { h with
        produced := congrArg (· + 1) h.produced
        progress := ⟨rfl, rfl, converged, error, going⟩ }⟩
  next power total progress =>
    rw [progress] at shown
    obtain ⟨-, -, converged, error, going⟩ := shown
    by_cases full : s.limit ≤ s.produced
    · rw [next_of_stop (.inr (by rwa [h.limit, h.produced])), if_pos full]
      exact ⟨rfl, { h with progress := ⟨converged, error, rfl⟩ }⟩
    · have room : t.produced < t.limit := by rw [h.limit, h.produced]; omega
      rw [next_of_room going room, h.advance_running progress, if_neg full]
      -- the matrices are out of their fields while the next sum is formed
      cases s.extend power total with
      | error cause => exact ⟨rfl, { h with progress := ⟨rfl, rfl, converged, rfl, rfl⟩ }⟩
      | ok following =>
        by_cases same : following.2.orderEq total = true
        · simp only [if_pos same]
          exact ⟨rfl, { h with progress := ⟨rfl, rfl, rfl, error, rfl⟩ }⟩
        · simp only [if_neg same]
          exact ⟨rfl, { h with
            produced := congrArg (· + 1) h.produced
            progress := ⟨rfl, rfl, converged, error, going⟩ }⟩

/-! ### All calls -/

/-- A copy of the fields and all its answers so far, those of the copies it was cloned from
included. -/
structure Copy (α : Type) where
  state : SumIterator α
  answers : List (Option (Matrix α))

open ClosureSequence (Call)

def Copy.next (c : Copy α) : Copy α := ⟨c.state.next.2, c.answers ++ [c.state.next.1]⟩

omit [Scalar α] in
def Copy.withLimit (limit : Nat) (c : Copy α) : Copy α := ⟨c.state.withLimit limit, c.answers⟩

/-- The copies after a call. A clone comes last. -/
def answer (copies : List (Copy α)) : Call → List (Copy α)
  | .next i => copies.modify i Copy.next
  | .limit i limit => copies.modify i (Copy.withLimit limit)
  | .clone i => copies ++ copies[i]?.toList

/-- The copies that calls leave of the fields. -/
def copies (start : SumIterator α) (calls : List Call) : List (Copy α) :=
  calls.foldl answer [⟨start, []⟩]

/-- The fields of a copy stand for a copy of a sequence that has answered alike. -/
structure Copy.Represents (c : Copy α) (c' : ClosureSequence.Copy α) : Prop where
  state : c.state.Represents c'.state
  answers : c.answers = c'.answers

theorem Copy.Represents.next {c : Copy α} {c' : ClosureSequence.Copy α} (h : c.Represents c') :
    c.next.Represents c'.next where
  state := h.state.next.2
  answers := by rw [Copy.next, ClosureSequence.Copy.next, h.answers, h.state.next.1]

omit [Scalar α] in
theorem Copy.Represents.withLimit {c : Copy α} {c' : ClosureSequence.Copy α} (h : c.Represents c')
    (limit : Nat) : (c.withLimit limit).Represents (c'.withLimit limit) :=
  ⟨h.state.withLimit limit, h.answers⟩

/-- No call brings the copies of the fields out of step with those of the sequence. -/
theorem answer_represents {before : List (Copy α)} {before' : List (ClosureSequence.Copy α)}
    (h : List.Forall₂ Copy.Represents before before') (call : Call) :
    List.Forall₂ Copy.Represents (answer before call) (ClosureSequence.answer before' call) := by
  cases call with
  | next i => exact forall₂_modify (fun _ _ => Copy.Represents.next) h i
  | limit i limit => exact forall₂_modify (fun _ _ k => k.withLimit limit) h i
  | clone i => exact List.rel_append h (forall₂_getElem? h i)

theorem copies_represent (h : t.Represents s) (calls : List Call) :
    List.Forall₂ Copy.Represents (t.copies calls) (s.copies calls) := by
  have start : List.Forall₂ Copy.Represents [⟨t, []⟩] [⟨s, []⟩] := .cons ⟨h, rfl⟩ .nil
  unfold copies ClosureSequence.copies
  generalize ([⟨t, []⟩] : List (Copy α)) = before,
    ([⟨s, []⟩] : List (ClosureSequence.Copy α)) = before' at start
  induction calls generalizing before before' with
  | nil => exact start
  | cons call calls ih => exact ih _ _ (answer_represents start call)

omit [Scalar α] in
/-- The fields before the first sum stand for the sequence from the beginning. -/
theorem exists_represents {d : Dioid α} {M : Matrix α} {start : SumIterator α}
    (begun : M.sumIterator d = .ok start) :
    ∃ s, M.closureSequence d = .ok s ∧ start.Represents s := by
  by_cases square : M.isSquare
  · simp only [Matrix.sumIterator, Matrix.requireSquare, require, if_pos square] at begun
    obtain rfl := Except.ok.inj begun
    exact ⟨_, dif_pos square, ⟨rfl, rfl, rfl, rfl, rfl, rfl, rfl, rfl, rfl⟩⟩
  · simp [Matrix.sumIterator, Matrix.requireSquare, require, square, bind, Except.bind] at begun

/-- What the answers of a copy amount to, and what its fields say about going on. -/
structure Copy.InOrder (d : Dioid α) (M : Matrix α) (c : Copy α) (items : List (Matrix α)) :
    Prop where
  answers : ∃ count, c.answers = items.map some ++ List.replicate count none
  produced : c.state.produced = items.length
  item : ∀ k (h : k < items.length), ∃ P, M.powerAndSum d k = .ok (P, items[k])
  moves : ∀ k (h : k + 1 < items.length), items[k + 1].orderEq items[k] = false
  full : c.state.limit ≤ c.state.produced → c.state.next.1 = none
  /-- A higher limit does not revive a copy. -/
  silent : none ∈ c.answers → ∀ limit, (c.state.withLimit limit).next.1 = none
  exclusive : c.state.converged = true → c.state.error = none
  converged : c.state.converged = true → ∃ last P T, items.getLast? = some last ∧
    M.powerAndSum d items.length = .ok (P, T) ∧ T.orderEq last = true
  failed : ∀ cause, c.state.error = some cause → M.powerAndSum d items.length = .error cause

/-- Whatever calls the copies of the fields receive, each of them has answered with the first sums of
the powers in order and then with nothing. -/
theorem copies_inOrder {d : Dioid α} {M : Matrix α} {start : SumIterator α}
    (begun : M.sumIterator d = .ok start) (calls : List Call) {c : Copy α}
    (member : c ∈ start.copies calls) : ∃ items, c.InOrder d M items := by
  obtain ⟨s, begun', represents⟩ := exists_represents begun
  obtain ⟨length, each⟩ := List.forall₂_iff_get.mp (copies_represent represents calls)
  obtain ⟨⟨i, bound⟩, rfl⟩ := List.mem_iff_get.mp member
  have same := each i bound (length ▸ bound)
  generalize (start.copies calls).get ⟨i, bound⟩ = c at same
  obtain ⟨items, count, answers, run, ended⟩ :=
    ClosureSequence.copies_follow s calls _ (List.get_mem _ ⟨i, length ▸ bound⟩)
  have has := run.hasYielded begun'
  generalize (s.copies calls).get ⟨i, length ▸ bound⟩ = c' at same answers has ended
  obtain ⟨converged_eq, error_eq⟩ := same.state.marks
  -- the items explain the sequence that the fields stand for
  exact ⟨items, {
    answers := ⟨count, same.answers.trans answers⟩
    produced := same.state.produced.trans has.produced
    item := has.item
    moves := has.moves
    full := next_of_full
    silent nothing limit := by
      have some_yet : count ≠ 0 := by
        rintro rfl
        simp [same.answers, answers] at nothing
      obtain ⟨ending, progress⟩ := ended some_yet
      exact next_of_done (same.state.done_of_ended progress)
    exclusive converged := by
      rw [converged_eq, ClosureSequence.converged_iff] at converged
      rw [error_eq, ClosureSequence.error?, converged]
    converged converged := by
      obtain ⟨k, P, T, Q, U, size, last, -, following, repeats⟩ :=
        has.of_converged (converged_eq ▸ converged)
      exact ⟨T, Q, U, last, size ▸ following, repeats⟩
    failed _ failed := has.of_failed (error_eq ▸ failed) }⟩

/-! ### A sequence of two sums and its clone -/

open ExtendedRational in
/-- Two vertices and one edge of weight `1`. -/
def oneEdge : Matrix ExtendedRational :=
  .ofVectors #v[#v[negInfinity, rational 1], #v[negInfinity, negInfinity]]

open ExtendedRational in
def noEdge : Matrix ExtendedRational :=
  .ofVectors #v[#v[rational 0, negInfinity], #v[negInfinity, rational 0]]

open ExtendedRational in
def edgeOrNone : Matrix ExtendedRational :=
  .ofVectors #v[#v[rational 0, rational 1], #v[negInfinity, rational 0]]

def oneEdgeIterator : SumIterator ExtendedRational :=
  ⟨.maxPlus, oneEdge, none, none, 0, ClosureSequence.defaultLimit, false, none, false⟩

/-- After the first sum the original is cloned, silenced by a limit and freed of it. The clone goes
on until it converges. -/
def turns : List Call :=
  [.next 0, .clone 0, .limit 0 1, .next 0, .limit 0 10, .next 0, .next 1, .next 1]

theorem copies_inOrder_turns : oneEdge.sumIterator .maxPlus = .ok oneEdgeIterator ∧
    (∃ c ∈ oneEdgeIterator.copies turns, c.answers = [some noEdge, none, none] ∧
      ∃ items, c.InOrder .maxPlus oneEdge items) ∧
    ∃ c ∈ oneEdgeIterator.copies turns, c.answers = [some noEdge, some edgeOrNone, none] ∧
      ∃ items, c.InOrder .maxPlus oneEdge items := by
  have begun : oneEdge.sumIterator .maxPlus = .ok oneEdgeIterator := rfl
  have answers : (oneEdgeIterator.copies turns).map Copy.answers =
      [[some noEdge, none, none], [some noEdge, some edgeOrNone, none]] := by decide +kernel
  have silenced : [some noEdge, none, none] ∈ (oneEdgeIterator.copies turns).map Copy.answers := by
    simp [answers]
  have converged : [some noEdge, some edgeOrNone, none] ∈
      (oneEdgeIterator.copies turns).map Copy.answers := by
    simp [answers]
  obtain ⟨c, member, same⟩ := List.mem_map.mp silenced
  obtain ⟨c', member', same'⟩ := List.mem_map.mp converged
  exact ⟨begun, ⟨c, member, same, copies_inOrder begun turns member⟩,
    c', member', same', copies_inOrder begun turns member'⟩

end SumIterator

end TropicalAlgebra
