import Mathlib.Order.Basic
import TropicalAlgebra.Proofs.Closure.Clones
import TropicalAlgebra.Proofs.Matrix.Alike
import TropicalAlgebra.Proofs.Matrix.Powers

/-!
# Closures over dioids that compute alike

Powers, traces and closures of related matrices are related, errors included. So are the sums that
two sequences hand out and the reasons why they end, whatever calls they both receive.
-/

namespace TropicalAlgebra

variable {α : Type}

/-- Related powers of related matrices. -/
structure Powers.Alike (R : α → α → Prop) (P Q : Powers α) : Prop where
  base : P.base.Alike R Q.base
  withIdentity : P.withIdentity = Q.withIdentity
  terms : List.Forall₂ (Matrix.Alike R) P.terms.toList Q.terms.toList

/-- The same kind of closure with related sums. -/
inductive Closure.Alike (R : α → α → Prop) : Closure α → Closure α → Prop
  | exact {star star' : Matrix α} (related : star.Alike R star') :
      Alike R (.exact star) (.exact star')
  | upTo (highest : Nat) {total total' : Matrix α} (related : total.Alike R total') :
      Alike R (.upTo highest total) (.upTo highest total')

namespace Powers.Alike

variable {R : α → α → Prop} {P Q : Powers α}

theorem size (alike : P.Alike R Q) : P.terms.size = Q.terms.size := alike.terms.length_eq

theorem highest (alike : P.Alike R Q) : P.highest = Q.highest := by
  rw [Powers.highest, Powers.highest, alike.size]

theorem positive (alike : P.Alike R Q) : List.Forall₂ (Matrix.Alike R) P.positive Q.positive := by
  have rest := List.forall₂_drop 1 alike.terms
  rwa [List.drop_one, List.drop_one] at rest

theorem term (alike : P.Alike R Q) (k : Nat) (h : k < P.terms.size) (h' : k < Q.terms.size) :
    P.terms[k].Alike R Q.terms[k] := alike.terms.get h h'

theorem identity (alike : P.Alike R Q) : P.identity.Alike R Q.identity := alike.term 0 _ _

theorem top (alike : P.Alike R Q) : P.top.Alike R Q.top := by
  have inside : P.highest < Q.terms.size := alike.highest.trans_lt Q.highest_lt_size
  have same : Q.terms[P.highest] = Q.top := by
    simp only [alike.highest]
    rfl
  exact same ▸ alike.term P.highest P.highest_lt_size inside

theorem push (alike : P.Alike R Q) {M N : Matrix α} (related : M.Alike R N) :
    (P.push M).Alike R (Q.push N) where
  base := alike.base
  withIdentity := alike.withIdentity
  terms := by
    rw [Powers.push, Powers.push, Array.toList_push, Array.toList_push]
    exact List.rel_append alike.terms (.cons related .nil)

end Powers.Alike

/-- If the traces are related, then so are those other than zero, with the same exponents. -/
theorem Powers.cycleWeights_related [Scalar α] {R : α → α → Prop} {d e : Dioid α}
    {P Q : Powers α} (traces : List.Forall₂ R (P.traces d) (Q.traces e))
    (isZero : ∀ {a a'}, R a a' → d.isZero a = e.isZero a') :
    List.Forall₂ (fun w w' => R w.1 w'.1 ∧ w.2 = w'.2) (P.cycleWeights d) (Q.cycleWeights e) := by
  have numbered {xs ys : List α} (related : List.Forall₂ R xs ys) (k : Nat) :
      List.Forall₂ (fun w w' => R w.1 w'.1 ∧ w.2 = w'.2) (xs.zipIdx k) (ys.zipIdx k) := by
    induction related generalizing k with
    | nil => exact .nil
    | cons first _ ih => exact .cons ⟨first, rfl⟩ (ih (k + 1))
  refine List.rel_filter (fun w w' related => ?_) (numbered traces 1)
  show (!d.isZero w.1) = true ↔ (!e.isZero w'.1) = true
  rw [isZero related.1]

namespace Dioid.Alike

open Outcome

variable [Scalar α] {R : α → α → Prop} {d e : Dioid α} (alike : Dioid.Alike R d e)
  {P Q : Powers α} {M N : Matrix α}

include alike

/-! ### Powers and their traces -/

theorem first (h : M.Alike R N) (withIdentity : Bool) :
    (Powers.first d M withIdentity).Alike R (Powers.first e N withIdentity) where
  base := h
  withIdentity := rfl
  terms := by
    refine .cons ?_ (.cons h .nil)
    simp only [h.rows]
    exact alike.identityOfPos _ _ _

theorem advance (h : P.Alike R Q) (count : Nat) :
    Outcome.Alike (Error.Alike R d e) (Powers.Alike R) (P.advance d count) (Q.advance e count) := by
  induction count generalizing P Q with
  | zero => exact .ok h
  | succ count ih =>
    have step : Outcome.Alike (Error.Alike R d e) (Powers.Alike R) (P.step d) (Q.step e) :=
      (alike.matrixMul h.top h.base).bind fun next => .ok (h.push next)
    exact step.bind ih

theorem extended (h : P.Alike R Q) (n : Nat) :
    Outcome.Alike (Error.Alike R d e) (Powers.Alike R) (P.extended d n) (Q.extended e n) := by
  unfold Powers.extended
  rw [← h.highest]
  exact alike.advance h _

theorem powers (h : M.Alike R N) (n : Nat) (withIdentity : Bool) :
    Outcome.Alike (Error.Alike R d e) (Powers.Alike R) (M.powers d n withIdentity)
      (N.powers e n withIdentity) := by
  refine (Matrix.alike_requireSquare .shape h).bind fun _ => ?_
  refine (Alike.of_require Iff.rfl (.configuration _)).bind fun _ => ?_
  exact alike.extended (alike.first h withIdentity) n

theorem sumUpTo (h : P.Alike R Q) (k : Nat) :
    Outcome.Alike (Error.Alike R d e) (Matrix.Alike R) (P.sumUpTo d k) (Q.sumUpTo e k) :=
  .of_foldlM (List.forall₂_take k h.positive) h.identity alike.matrixAdd

theorem diagonalSum (h : M.Alike R N) : R (M.diagonalSum d) (N.diagonalSum e) :=
  alike.sum h.diagonal

theorem trace (h : M.Alike R N) : Outcome.Alike (Error.Alike R d e) R (M.trace d) (N.trace e) :=
  (Matrix.alike_requireSquare .shape h).bind fun _ => .ok (alike.diagonalSum h)

theorem traces (h : P.Alike R Q) : List.Forall₂ R (P.traces d) (Q.traces e) :=
  List.rel_map (fun _ _ h => alike.diagonalSum h) h.positive

theorem powersTraceSum (h : P.Alike R Q) : R (P.traceSum d) (Q.traceSum e) :=
  alike.sum (alike.traces h)

theorem traceSum (h : M.Alike R N) :
    Outcome.Alike (Error.Alike R d e) R (M.traceSum d) (N.traceSum e) := by
  unfold Matrix.traceSum
  rw [← h.rows]
  exact (alike.powers h _ _).bind fun powers => .ok (alike.powersTraceSum powers)

theorem cycleWeights (h : P.Alike R Q) :
    List.Forall₂ (fun w w' => R w.1 w'.1 ∧ w.2 = w'.2) (P.cycleWeights d) (Q.cycleWeights e) :=
  Powers.cycleWeights_related (alike.traces h) alike.isZero

theorem spectralRadius (h : M.Alike R N) :
    Outcome.Alike (Error.Alike R d e) R (M.spectralRadius d) (N.spectralRadius e) := by
  unfold Matrix.spectralRadius
  rw [← h.rows]
  refine (alike.powers h _ _).bind fun powers => ?_
  have means := Alike.of_mapM (alike.cycleWeights powers) fun w => alike.meanWeight w.1 w.2
  exact means.bind fun means => .ok (alike.sum means)

/-! ### Closures -/

theorem star (h : M.Alike R N) :
    Outcome.Alike (Error.Alike R d e) (Matrix.Alike R) (M.star d) (N.star e) := by
  unfold Matrix.star
  rw [← h.rows]
  refine (alike.powers h _ _).bind fun powers => ?_
  have trace := alike.powersTraceSum powers
  refine (Alike.of_require ?_ (.notWellDefined trace)).bind fun _ => alike.sumUpTo powers _
  rw [alike.dominates trace alike.one]

theorem closure (h : M.Alike R N) (highest : Option Nat) :
    Outcome.Alike (Error.Alike R d e) (Closure.Alike R) (M.closure d highest)
      (N.closure e highest) := by
  unfold Matrix.closure
  rw [← h.rows, ← h.cols]
  refine (alike.powers h _ _).bind fun powers => ?_
  rw [alike.dominates (alike.powersTraceSum powers) alike.one]
  split
  · refine (alike.extended powers _).bind fun powers => ?_
    exact (alike.sumUpTo powers _).bind fun total => .ok (.upTo _ total)
  · exact (alike.sumUpTo powers _).bind fun star => .ok (.exact star)

end Dioid.Alike

/-! ### Sequences of partial sums -/

/-- The same reason for an end, with related errors. -/
inductive Ending.Alike (R : α → α → Prop) (d e : Dioid α) : Ending α → Ending α → Prop
  | converged : Alike R d e .converged .converged
  | limit : Alike R d e .limit .limit
  | failed {cause cause' : Error α} (related : Error.Alike R d e cause cause') :
      Alike R d e (.failed cause) (.failed cause')

inductive Progress.Alike (R : α → α → Prop) (d e : Dioid α) : Progress α → Progress α → Prop
  | fresh : Alike R d e .fresh .fresh
  | running {power power' total total' : Matrix α} (powers : power.Alike R power')
      (totals : total.Alike R total') : Alike R d e (.running power total) (.running power' total')
  | ended {ending ending' : Ending α} (related : Ending.Alike R d e ending ending') :
      Alike R d e (.ended ending) (.ended ending')

namespace ClosureSequence

/-- Sequences over `d` and over `e` that have come equally far with related sums. -/
structure Alike (R : α → α → Prop) (d e : Dioid α) (s s' : ClosureSequence α) : Prop where
  dioid : s.dioid = d
  dioid' : s'.dioid = e
  base : s.base.Alike R s'.base
  limit : s.limit = s'.limit
  produced : s.produced = s'.produced
  progress : Progress.Alike R d e s.progress s'.progress

/-- Copies in related states that have given related answers. -/
structure Copy.Alike (R : α → α → Prop) (d e : Dioid α) (c c' : Copy α) : Prop where
  state : ClosureSequence.Alike R d e c.state c'.state
  answers : List.Forall₂ (Option.Rel (Matrix.Alike R)) c.answers c'.answers

namespace Alike

variable {R : α → α → Prop} {d e : Dioid α} {s s' : ClosureSequence α}

theorem withLimit (h : s.Alike R d e s') (limit : Nat) :
    (s.withLimit limit).Alike R d e (s'.withLimit limit) :=
  { h with limit := rfl }

theorem finish (h : s.Alike R d e s') {ending ending' : Ending α}
    (related : Ending.Alike R d e ending ending') :
    (s.finish ending).Alike R d e (s'.finish ending') :=
  { h with progress := .ended related }

theorem yield (h : s.Alike R d e s') {power power' total total' : Matrix α}
    (powers : power.Alike R power') (totals : total.Alike R total') :
    (s.yield power total).Alike R d e (s'.yield power' total') :=
  { h with
    produced := congrArg (· + 1) h.produced
    progress := .running powers totals }

theorem converged (h : s.Alike R d e s') : s.converged = s'.converged := by
  have related := h.progress
  unfold ClosureSequence.converged
  generalize s.progress = p, s'.progress = p' at related
  cases related with
  | fresh => rfl
  | running _ _ => rfl
  | ended related => cases related <;> rfl

theorem error? (h : s.Alike R d e s') :
    Option.Rel (Error.Alike R d e) s.error? s'.error? := by
  have related := h.progress
  unfold ClosureSequence.error?
  generalize s.progress = p, s'.progress = p' at related
  cases related with
  | fresh => exact .none
  | running _ _ => exact .none
  | ended related =>
    cases related with
    | converged => exact .none
    | limit => exact .none
    | failed cause => exact .some cause

end Alike

end ClosureSequence

theorem Matrix.Alike.closureSequence {R : α → α → Prop} {M N : Matrix α} (h : M.Alike R N)
    (d e : Dioid α) :
    Outcome.Alike (Error.Alike R d e) (ClosureSequence.Alike R d e) (M.closureSequence d)
      (N.closureSequence e) := by
  unfold Matrix.closureSequence
  by_cases square : M.isSquare
  · rw [dif_pos square, dif_pos (h.isSquare ▸ square)]
    exact .ok ⟨rfl, rfl, h, rfl, rfl, .fresh⟩
  · rw [dif_neg square, dif_neg (h.isSquare ▸ square), ← h.shape]
    exact .error (.shape _)

namespace Dioid.Alike

open Outcome ClosureSequence

variable [Scalar α] {R : α → α → Prop} {d e : Dioid α} (alike : Dioid.Alike R d e)
  {M N : Matrix α} {s s' : ClosureSequence α}

include alike

theorem extend (h : s.Alike R d e s') {power power' total total' : Matrix α}
    (powers : power.Alike R power') (totals : total.Alike R total') :
    Outcome.Alike (Error.Alike R d e) (fun p p' => p.1.Alike R p'.1 ∧ p.2.Alike R p'.2)
      (s.extend power total) (s'.extend power' total') := by
  unfold ClosureSequence.extend
  rw [h.dioid, h.dioid']
  refine (alike.matrixMul powers h.base).bind fun powers => ?_
  exact (alike.matrixAdd totals powers).bind fun totals => .ok ⟨powers, totals⟩

theorem identity (h : s.Alike R d e s') : s.identity.Alike R s'.identity := by
  unfold ClosureSequence.identity
  simp only [h.dioid, h.dioid', h.base.rows]
  exact alike.identityOfPos _ _ _

/-- One call: related answers, and related states after them. -/
theorem next (h : s.Alike R d e s') :
    Option.Rel (Matrix.Alike R) s.next.1 s'.next.1 ∧ s.next.2.Alike R d e s'.next.2 := by
  have related := h.progress
  unfold ClosureSequence.next
  -- both sequences are equally far, and every test on the way out gives one result for both
  generalize progress : s.progress = p, progress' : s'.progress = p' at related
  cases related with
  | ended _ => exact ⟨.none, h⟩
  | fresh =>
    simp only [h.limit, h.produced]
    split
    · exact ⟨.none, h.finish .limit⟩
    · have first := alike.identity h
      exact ⟨.some first, h.yield first first⟩
  | @running power power' total total' powers totals =>
    simp only [h.limit, h.produced]
    split
    · exact ⟨.none, h.finish .limit⟩
    · generalize s.extend power total = x, s'.extend power' total' = x',
        alike.extend h powers totals = extended
      cases extended with
      | error cause => exact ⟨.none, h.finish (.failed cause)⟩
      | ok next =>
        simp only [alike.matrixOrderEq next.2 totals]
        split
        · exact ⟨.none, h.finish .converged⟩
        · exact ⟨.some next.2, h.yield next.1 next.2⟩

theorem copyNext {c c' : Copy α} (h : c.Alike R d e c') : c.next.Alike R d e c'.next where
  state := (alike.next h.state).2
  answers := List.rel_append h.answers (.cons (alike.next h.state).1 .nil)

theorem answer {before before' : List (Copy α)}
    (h : List.Forall₂ (Copy.Alike R d e) before before') (call : Call) :
    List.Forall₂ (Copy.Alike R d e) (answer before call) (answer before' call) := by
  cases call with
  | next i => exact forall₂_modify (fun _ _ => alike.copyNext) h i
  | limit i limit =>
    exact forall₂_modify (fun _ _ k => ⟨k.state.withLimit limit, k.answers⟩) h i
  | clone i => exact List.rel_append h (forall₂_getElem? h i)

/-- Whatever calls the copies receive, they remain related. -/
theorem copies (h : s.Alike R d e s') (calls : List Call) :
    List.Forall₂ (Copy.Alike R d e) (copies s calls) (copies s' calls) := by
  have start : List.Forall₂ (Copy.Alike R d e) [⟨s, []⟩] [⟨s', []⟩] := .cons ⟨h, .nil⟩ .nil
  unfold ClosureSequence.copies
  generalize ([⟨s, []⟩] : List (Copy α)) = before, ([⟨s', []⟩] : List (Copy α)) = before' at start
  induction calls generalizing before before' with
  | nil => exact start
  | cons call calls ih => exact ih _ _ (alike.answer start call)

end Dioid.Alike

end TropicalAlgebra
