import TropicalAlgebra.Closure.Sequence

/-!
# What a sequence of partial sums hands out

However calls for the next sum and changes of the limit follow each other, a sequence hands out the
sums of the powers in order, each once, and never one that repeats its predecessor. The state it is
in says why it has not gone further.
-/

namespace TropicalAlgebra

variable {α : Type} [Scalar α]

/-- The power with exponent `k` and the sum of all powers up to it, from the identity on. -/
def Matrix.powerAndSum (d : Dioid α) (M : Matrix α) : Nat → Outcome α (Matrix α × Matrix α)
  | 0 =>
      let identity := identityOfPos d M.rows M.rows_pos
      .ok (identity, identity)
  | k + 1 => do
      let (power, total) ← M.powerAndSum d k
      let power ← power.mul d M
      let total ← total.add d power
      pure (power, total)

namespace ClosureSequence

/-- Everything that one call can do: what it hands out, and the state that it leaves. -/
inductive Step (s : ClosureSequence α) : Option (Matrix α) → ClosureSequence α → Prop
  | stays {ending : Ending α} (progress : s.progress = .ended ending) : Step s none s
  | limit (full : s.limit ≤ s.produced) : Step s none (s.finish .limit)
  | identity (progress : s.progress = .fresh) (room : s.produced < s.limit) :
      Step s (some s.identity) (s.yield s.identity s.identity)
  | fails {power total : Matrix α} {cause : Error α} (progress : s.progress = .running power total)
      (extended : s.extend power total = .error cause) : Step s none (s.finish (.failed cause))
  | repeats {power total nextPower nextTotal : Matrix α}
      (progress : s.progress = .running power total)
      (extended : s.extend power total = .ok (nextPower, nextTotal))
      (same : nextTotal.orderEq total = true) : Step s none (s.finish .converged)
  | moves {power total nextPower nextTotal : Matrix α}
      (progress : s.progress = .running power total) (room : s.produced < s.limit)
      (extended : s.extend power total = .ok (nextPower, nextTotal))
      (differs : nextTotal.orderEq total = false) :
      Step s (some nextTotal) (s.yield nextPower nextTotal)

theorem step_next (s : ClosureSequence α) : s.Step s.next.1 s.next.2 := by
  unfold ClosureSequence.next
  split
  next progress => exact .stays progress
  next progress =>
    split
    next full => exact .limit full
    next below => exact .identity progress (Nat.lt_of_not_le below)
  next power total progress =>
    split
    next full => exact .limit full
    next below =>
      split
      next extended => exact .fails progress extended
      next extended =>
        split
        next same => exact .repeats progress extended same
        next differs =>
          exact .moves progress (Nat.lt_of_not_le below) extended (by simpa using differs)

/-- The states that calls and changes of the limit lead to, with the sums handed out on the way. -/
inductive Reaches (start : ClosureSequence α) : List (Matrix α) → ClosureSequence α → Prop
  | start : Reaches start [] start
  | next {items : List (Matrix α)} {s : ClosureSequence α} (before : Reaches start items s) :
      Reaches start (items ++ s.next.1.toList) s.next.2
  | limit {items : List (Matrix α)} {s : ClosureSequence α} (before : Reaches start items s)
      (limit : Nat) : Reaches start items (s.withLimit limit)

/-- What a number of calls hand out, and the state after them. -/
def calls (s : ClosureSequence α) : Nat → List (Matrix α) × ClosureSequence α
  | 0 => ([], s)
  | count + 1 => ((s.calls count).1 ++ (s.calls count).2.next.1.toList, (s.calls count).2.next.2)

theorem reaches_calls (s : ClosureSequence α) (count : Nat) :
    s.Reaches (s.calls count).1 (s.calls count).2 := by
  induction count with
  | zero => exact .start
  | succ count ih => exact ih.next

/-- What is known of the sums of the powers of `M` after `count` of them have been handed out. -/
def Explains (d : Dioid α) (M : Matrix α) (count : Nat) : Progress α → Prop
  | .fresh => count = 0
  | .running power total => ∃ k, count = k + 1 ∧ M.powerAndSum d k = .ok (power, total)
  | .ended .converged => ∃ k P T Q U, count = k + 1 ∧ M.powerAndSum d k = .ok (P, T) ∧
      M.powerAndSum d (k + 1) = .ok (Q, U) ∧ U.orderEq T = true
  | .ended .limit => True
  | .ended (.failed cause) => ∃ k, count = k + 1 ∧ M.powerAndSum d (k + 1) = .error cause

/-- The sequence has handed out `items`, the first sums of the powers of `M`. -/
structure HasYielded (d : Dioid α) (M : Matrix α) (items : List (Matrix α))
    (s : ClosureSequence α) : Prop where
  dioid : s.dioid = d
  base : s.base = M
  produced : s.produced = items.length
  item : ∀ k (h : k < items.length), ∃ P, M.powerAndSum d k = .ok (P, items[k])
  moves : ∀ k (h : k + 1 < items.length), items[k + 1].orderEq items[k] = false
  progress : Explains d M items.length s.progress

namespace HasYielded

variable {d : Dioid α} {M : Matrix α} {items : List (Matrix α)} {s : ClosureSequence α}

theorem fresh (h : s.dioid = d) (base : s.base = M) (none_yet : s.produced = 0)
    (progress : s.progress = .fresh) : HasYielded d M [] s where
  dioid := h
  base := base
  produced := none_yet
  item k h := absurd h (Nat.not_lt_zero k)
  moves k h := absurd h (Nat.not_lt_zero _)
  progress := by
    rw [progress]
    rfl

theorem finish (has : HasYielded d M items s) (ending : Ending α)
    (explained : Explains d M items.length (.ended ending)) :
    HasYielded d M items (s.finish ending) :=
  { has with progress := explained }

theorem withLimit (has : HasYielded d M items s) (limit : Nat) :
    HasYielded d M items (s.withLimit limit) :=
  { has with }

theorem yield (has : HasYielded d M items s) {power total : Matrix α}
    (computed : M.powerAndSum d items.length = .ok (power, total))
    (moves : ∀ last, items.getLast? = some last → total.orderEq last = false) :
    HasYielded d M (items ++ [total]) (s.yield power total) where
  dioid := has.dioid
  base := has.base
  produced := by simp [ClosureSequence.yield, has.produced]
  item k h := by
    -- an item that was there before, or the new one
    by_cases old : k < items.length
    · rw [List.getElem_append_left old]
      exact has.item k old
    · obtain rfl : k = items.length := by
        have bound : k < items.length + 1 := by simpa using h
        omega
      exact ⟨power, by simpa using computed⟩
  moves k h := by
    by_cases old : k + 1 < items.length
    · rw [List.getElem_append_left old, List.getElem_append_left (by omega)]
      exact has.moves k old
    · have size : k + 1 = items.length := by
        have bound : k + 1 < items.length + 1 := by simpa using h
        omega
      have inside : k < items.length := by omega
      have last : items.getLast? = some items[k] := by
        rw [List.getLast?_eq_getElem?, show items.length - 1 = k by omega,
          List.getElem?_eq_getElem inside]
      rw [List.getElem_append_left inside, List.getElem_append_right (by omega)]
      simpa [size] using moves _ last
  progress := ⟨items.length, by simp, computed⟩

theorem getLast?_eq (has : HasYielded d M items s) {k : Nat} (count : items.length = k + 1)
    {P T : Matrix α} (computed : M.powerAndSum d k = .ok (P, T)) : items.getLast? = some T := by
  obtain ⟨P', item⟩ := has.item k (by omega)
  have same : T = items[k] := by
    rw [computed] at item
    exact (Prod.mk.inj (Except.ok.inj item)).2
  rw [List.getLast?_eq_getElem?, show items.length - 1 = k by omega,
    List.getElem?_eq_getElem (by omega), same]

/-- The step from a running sequence forms the sum after the last one. -/
theorem powerAndSum_length (has : HasYielded d M items s) {power total : Matrix α}
    (progress : s.progress = .running power total) :
    M.powerAndSum d items.length = s.extend power total := by
  have explained := has.progress
  rw [progress] at explained
  obtain ⟨k, count, computed⟩ := explained
  rw [count, Matrix.powerAndSum, computed, ← has.dioid, ← has.base]
  rfl

/-- One call hands out the next sum, or none and the reason for it. -/
theorem step (has : HasYielded d M items s) {total? : Option (Matrix α)}
    {after : ClosureSequence α} (step : s.Step total? after) :
    HasYielded d M (items ++ total?.toList) after := by
  have explained := has.progress
  cases step with
  | stays progress => simpa using has
  | limit full => simpa using has.finish .limit trivial
  | identity progress room =>
    rw [progress] at explained
    have start : items.length = 0 := explained
    refine has.yield ?_ fun last found => ?_
    · rw [start, ← has.dioid, ← has.base]
      rfl
    · rw [List.eq_nil_of_length_eq_zero start] at found
      simp at found
  | fails progress extended =>
    rw [progress] at explained
    obtain ⟨k, count, computed⟩ := explained
    have failed := (has.powerAndSum_length progress).trans extended
    simpa using has.finish (.failed _) ⟨k, count, count ▸ failed⟩
  | repeats progress extended same =>
    rw [progress] at explained
    obtain ⟨k, count, computed⟩ := explained
    have reached := (has.powerAndSum_length progress).trans extended
    simpa using has.finish .converged ⟨k, _, _, _, _, count, computed, count ▸ reached, same⟩
  | moves progress room extended differs =>
    rw [progress] at explained
    obtain ⟨k, count, computed⟩ := explained
    refine has.yield ((has.powerAndSum_length progress).trans extended) fun last found => ?_
    rw [has.getLast?_eq count computed] at found
    obtain rfl := Option.some.inj found
    exact differs

end HasYielded

/-- Whatever the calls, the items are sums of powers in order and the state explains itself. -/
theorem Reaches.hasYielded {d : Dioid α} {M : Matrix α} {start s : ClosureSequence α}
    {items : List (Matrix α)} (begun : M.closureSequence d = .ok start)
    (run : start.Reaches items s) : HasYielded d M items s := by
  induction run with
  | start =>
    unfold Matrix.closureSequence at begun
    split at begun
    · obtain rfl := Except.ok.inj begun
      exact .fresh rfl rfl rfl rfl
    · simp at begun
  | next _ ih => exact ih.step (step_next _)
  | limit _ limit ih => exact ih.withLimit limit

/-- A sequence that has converged has formed the sum after its last item, which repeats it. -/
theorem HasYielded.of_converged {d : Dioid α} {M : Matrix α} {items : List (Matrix α)}
    {s : ClosureSequence α} (has : HasYielded d M items s) (converged : s.converged = true) :
    ∃ k P T Q U, items.length = k + 1 ∧ items.getLast? = some T ∧
      M.powerAndSum d k = .ok (P, T) ∧ M.powerAndSum d (k + 1) = .ok (Q, U) ∧
      U.orderEq T = true := by
  have explained := has.progress
  rw [converged_iff.mp converged] at explained
  obtain ⟨k, P, T, Q, U, count, computed, following, repeats⟩ := explained
  exact ⟨k, P, T, Q, U, count, has.getLast?_eq count computed, computed, following, repeats⟩

/-- A sequence that has failed names the error of the sum after its last item. -/
theorem HasYielded.of_failed {d : Dioid α} {M : Matrix α} {items : List (Matrix α)}
    {s : ClosureSequence α} {cause : Error α} (has : HasYielded d M items s)
    (failed : s.error? = some cause) : M.powerAndSum d items.length = .error cause := by
  have explained := has.progress
  rw [error?_eq_some_iff.mp failed] at explained
  obtain ⟨k, count, error⟩ := explained
  exact count ▸ error

/-! ### Draining -/

/-- Draining a sequence that has room for fewer than `count` further sums ends it; at the limit only
if the limit is reached. -/
theorem drainUpTo_ends {start s : ClosureSequence α} {items : List (Matrix α)} {count : Nat}
    (run : start.Reaches items s) (running : ∀ ending, s.progress ≠ .ended ending)
    (enough : s.limit - s.produced < count) :
    ∃ items' s', s.drainUpTo count items.getLast? = (items'.getLast?, s') ∧
      start.Reaches items' s' ∧ s'.limit = s.limit ∧
      ∃ ending, s'.progress = .ended ending ∧ (ending = .limit → s'.limit ≤ s'.produced) := by
  induction count generalizing s items with
  | zero => omega
  | succ count ih =>
    have step := s.step_next
    have after := run.next
    rw [drainUpTo]
    generalize s.next = result at step after
    obtain ⟨total?, s'⟩ := result
    simp only at step after
    -- a call that hands out nothing is the last one; the others leave room for one sum less
    cases step with
    | stays progress => exact absurd progress (running _)
    | limit full =>
      exact ⟨items, _, rfl, by simpa using after, rfl, .limit, rfl, fun _ => full⟩
    | fails progress extended =>
      exact ⟨items, _, rfl, by simpa using after, rfl, _, rfl, fun h => by simp at h⟩
    | repeats progress extended same =>
      exact ⟨items, _, rfl, by simpa using after, rfl, _, rfl, fun h => by simp at h⟩
    | identity progress room =>
      have fewer := ih after (by simp) (by rw [limit_yield, produced_yield]; omega)
      simpa using fewer
    | moves progress room extended differs =>
      have fewer := ih after (by simp) (by rw [limit_yield, produced_yield]; omega)
      simpa using fewer

end ClosureSequence

end TropicalAlgebra
