import TropicalAlgebra.Proofs.Closure.Sequence

/-!
# Sequences and their clones

A sequence of partial sums can be cloned at any time, and each copy goes on by itself. Whatever calls
the copies receive in whatever order, each of them has answered with the sums of the powers in order
and then with nothing, where the answers before it was cloned count as its own.
-/

namespace TropicalAlgebra

variable {α : Type} [Scalar α]

namespace ClosureSequence

/-- A copy of a sequence and all its answers so far, those of the copies it was cloned from
included. -/
structure Copy (α : Type) where
  state : ClosureSequence α
  answers : List (Option (Matrix α))

/-- A call to one of several copies. -/
inductive Call where
  | next (copy : Nat)
  | limit (copy limit : Nat)
  | clone (copy : Nat)

def Copy.next (c : Copy α) : Copy α := ⟨c.state.next.2, c.answers ++ [c.state.next.1]⟩

omit [Scalar α] in
def Copy.withLimit (limit : Nat) (c : Copy α) : Copy α := ⟨c.state.withLimit limit, c.answers⟩

/-- The copies after a call. A clone comes last. -/
def answer (copies : List (Copy α)) : Call → List (Copy α)
  | .next i => copies.modify i Copy.next
  | .limit i limit => copies.modify i (Copy.withLimit limit)
  | .clone i => copies ++ copies[i]?.toList

/-- The copies that calls leave of a sequence. -/
def copies (start : ClosureSequence α) (calls : List Call) : List (Copy α) :=
  calls.foldl answer [⟨start, []⟩]

/-- The answers are the items that the sequence has handed out on the way to its state, and nothing
after them; it has answered with nothing only if it has ended. -/
def Copy.Follows (start : ClosureSequence α) (c : Copy α) (items : List (Matrix α)) : Prop :=
  ∃ count, c.answers = items.map some ++ List.replicate count none ∧
    start.Reaches items c.state ∧ (count ≠ 0 → ∃ ending, c.state.progress = .ended ending)

theorem Step.ended {s after : ClosureSequence α} {total? : Option (Matrix α)}
    (step : s.Step total? after) (nothing : total? = none) :
    ∃ ending, after.progress = .ended ending := by
  cases step with
  | stays progress => exact ⟨_, progress⟩
  | limit full => exact ⟨.limit, rfl⟩
  | fails progress extended => exact ⟨.failed _, rfl⟩
  | repeats progress extended same => exact ⟨.converged, rfl⟩
  | identity => simp at nothing
  | moves => simp at nothing

theorem next_of_ended {s : ClosureSequence α} {ending : Ending α}
    (ended : s.progress = .ended ending) : s.next = (none, s) := by
  rw [ClosureSequence.next, ended]

namespace Copy.Follows

variable {start : ClosureSequence α} {c : Copy α} {items : List (Matrix α)}

theorem next (follows : c.Follows start items) : ∃ items', c.next.Follows start items' := by
  obtain ⟨count, answers, run, ended⟩ := follows
  have step := c.state.step_next
  have after := run.next
  cases given : c.state.next.1 with
  | none =>
    rw [given] at step after
    refine ⟨items, count + 1, ?_, by simpa [Copy.next] using after, fun _ => step.ended rfl⟩
    rw [Copy.next, given, answers, List.replicate_succ', List.append_assoc]
  | some total =>
    -- a copy that has answered with nothing would do so again
    have none_yet : count = 0 := by
      refine Decidable.byContradiction fun some_yet => ?_
      obtain ⟨ending, progress⟩ := ended some_yet
      simp [next_of_ended progress] at given
    rw [given] at after
    refine ⟨items ++ [total], 0, ?_, after, fun h => absurd rfl h⟩
    rw [Copy.next, given, answers, none_yet]
    simp

theorem withLimit (follows : c.Follows start items) (limit : Nat) :
    (c.withLimit limit).Follows start items := by
  obtain ⟨count, answers, run, ended⟩ := follows
  exact ⟨count, answers, run.limit limit, ended⟩

end Copy.Follows

theorem mem_modify {β : Type} {bs : List β} {i : Nat} {f : β → β} {b : β}
    (member : b ∈ bs.modify i f) : ∃ b' ∈ bs, b = b' ∨ b = f b' := by
  obtain ⟨j, bound, rfl⟩ := List.mem_iff_getElem.mp member
  have inside : j < bs.length := by simpa using bound
  refine ⟨bs[j], List.getElem_mem inside, ?_⟩
  rw [List.getElem_modify]
  split
  · exact Or.inr rfl
  · exact Or.inl rfl

/-- No call leads a copy off the way. -/
theorem answer_follows {start : ClosureSequence α} {copies : List (Copy α)}
    (before : ∀ c ∈ copies, ∃ items, c.Follows start items) (call : Call) :
    ∀ c ∈ answer copies call, ∃ items, c.Follows start items := by
  intro c member
  -- a call changes one copy, and a clone takes over the way of its original
  cases call with
  | next i =>
    obtain ⟨c', old, rfl | rfl⟩ := mem_modify member
    · exact before c old
    · obtain ⟨items, follows⟩ := before c' old
      exact follows.next
  | limit i limit =>
    obtain ⟨c', old, rfl | rfl⟩ := mem_modify member
    · exact before c old
    · obtain ⟨items, follows⟩ := before c' old
      exact ⟨items, follows.withLimit limit⟩
  | clone i =>
    rcases List.mem_append.mp member with old | new
    · exact before c old
    · exact before c (List.mem_of_getElem? (Option.mem_toList.mp new))

theorem copies_follow (start : ClosureSequence α) (calls : List Call) :
    ∀ c ∈ start.copies calls, ∃ items, c.Follows start items := by
  refine List.foldlRecOn calls answer (motive := fun copies => ∀ c ∈ copies, ∃ items,
    c.Follows start items) ?_ fun copies before call _ => answer_follows before call
  intro c member
  obtain rfl := List.mem_singleton.mp member
  exact ⟨[], 0, rfl, .start, fun h => absurd rfl h⟩

end ClosureSequence

end TropicalAlgebra
