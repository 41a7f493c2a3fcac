import TropicalAlgebra.Proofs.Matrix.Alike
import TropicalAlgebra.TwoSided.Solver

/-!
# Two-sided equations over dioids that compute alike

Two iterations whose half-steps are related, and whose tests agree, take the same course: they stop
after the same number of rounds, for the same reason and with related vectors.
-/

namespace TropicalAlgebra

open Outcome

variable {α : Type} [Scalar α]

namespace Dioid.Alike

variable {R : α → α → Prop} {d e : Dioid α} (alike : Dioid.Alike R d e)
  {A A' b b' x x' : Matrix α}

include alike

theorem subsolution (h : A.Alike R A') (k : b.Alike R b') :
    Outcome.Alike (Error.Alike R d e) (Matrix.Alike R) (A.subsolution d b)
      (A'.subsolution e b') :=
  (alike.matrixMul (alike.pseudoInverse k) h).bind fun product => .ok (alike.pseudoInverse product)

theorem centred (h : x.Alike R x') {gap gap' : α} (k : R gap gap') :
    Outcome.Alike (Error.Alike R d e) (Matrix.Alike R) (x.centred d gap) (x'.centred e gap') :=
  (alike.pow k _).bind fun half => alike.scale h half

end Dioid.Alike

namespace TwoSided

/-! ### Iterations with related half-steps -/

section Iteration

/-- Half-steps with vectors related by `V` and gaps related by `G`. -/
structure HalfStep.Alike (V : Matrix α → Matrix α → Prop) (G : α → α → Prop)
    (h h' : HalfStep α) : Prop where
  vector : V h.vector h'.vector
  gap : G h.gap h'.gap

/-- Trails of one length with related vectors. -/
structure Trail.Alike (V : Matrix α → Matrix α → Prop) (t t' : Trail α) : Prop where
  x : V t.x t'.x
  earlierX : List.Forall₂ V t.earlierX t'.earlierX
  earlierY : List.Forall₂ V t.earlierY t'.earlierY
  rounds : t.rounds = t'.rounds

inductive Round.Alike (V : Matrix α → Matrix α → Prop) (G : α → α → Prop) :
    Round α → Round α → Prop
  | stopped {theta theta' sigma sigma' : Matrix α} {gap gap' : α} (termination : Termination)
      (thetas : V theta theta') (sigmas : V sigma sigma') (gaps : G gap gap') :
      Alike V G (.stopped theta sigma gap termination) (.stopped theta' sigma' gap' termination)
  | completed {x x' y y' : Matrix α} {gap gap' : α} (xs : V x x') (ys : V y y')
      (gaps : G gap gap') : Alike V G (.completed x y gap) (.completed x' y' gap')

/-- Solutions with related vectors and gaps that were found in the same number of rounds and for the
same reason. -/
structure Solution.Alike (V : Matrix α → Matrix α → Prop) (G : α → α → Prop)
    (s s' : Solution α) : Prop where
  theta : V s.theta s'.theta
  sigma : V s.sigma s'.sigma
  gap : G s.gap s'.gap
  iterations : s.iterations = s'.iterations
  termination : s.termination = s'.termination

/-- The same settings but for the initial vectors, which are related. -/
structure Settings.Alike (R : α → α → Prop) (s s' : Settings α) : Prop where
  initial : Option.Rel (Matrix.Alike R) s.initial s'.initial
  maxIterations : s.maxIterations = s'.maxIterations
  tolerance : s.tolerance = s'.tolerance

variable {V : Matrix α → Matrix α → Prop} {G : α → α → Prop} {E : Error α → Error α → Prop}
  {d e : Dioid α} {tolerance : α} {A B A' B' : Matrix α}

/-- Half-steps from related vectors are related, and the tests of the iteration do not tell their
vectors and gaps apart. -/
structure Parallel (V : Matrix α → Matrix α → Prop) (G : α → α → Prop)
    (E : Error α → Error α → Prop) (d e : Dioid α) (tolerance : α) (A B A' B' : Matrix α) :
    Prop where
  right : ∀ {x x'}, V x x' →
    Outcome.Alike E (HalfStep.Alike V G) (halfStep d A B x) (halfStep e A' B' x')
  left : ∀ {y y'}, V y y' →
    Outcome.Alike E (HalfStep.Alike V G) (halfStep d B A y) (halfStep e B' A' y')
  closed : ∀ {g g'}, G g g' →
    Scalar.approxEq tolerance g d.one = Scalar.approxEq tolerance g' e.one
  seen : ∀ {v v' w w'}, V v v' → V w w' → v.approxEq tolerance w = v'.approxEq tolerance w'

namespace Parallel

variable (parallel : Parallel V G E d e tolerance A B A' B')

include parallel

theorem stop?_eq {h h' : HalfStep α} (steps : h.Alike V G h') {vs vs' : List (Matrix α)}
    (earlier : List.Forall₂ V vs vs') : stop? d tolerance h vs = stop? e tolerance h' vs' := by
  have repeats : (vs.any fun v => v.approxEq tolerance h.vector) =
      vs'.any fun v => v.approxEq tolerance h'.vector := by
    induction earlier with
    | nil => rfl
    | cons first _ ih => rw [List.any_cons, List.any_cons, ih, parallel.seen first steps.vector]
  rw [stop?, stop?, parallel.closed steps.gap, repeats]

theorem round {t t' : Trail α} (trails : t.Alike V t') :
    Outcome.Alike E (Round.Alike V G) (round d tolerance A B t) (round e tolerance A' B' t') := by
  refine (parallel.right trails.x).bind fun right => ?_
  rw [parallel.stop?_eq right trails.earlierY]
  split
  next => exact .ok (.stopped _ trails.x right.vector right.gap)
  next =>
    refine (parallel.left right.vector).bind fun left => ?_
    rw [parallel.stop?_eq left (.cons trails.x trails.earlierX)]
    split
    next => exact .ok (.stopped _ left.vector right.vector left.gap)
    next => exact .ok (.completed left.vector right.vector left.gap)

/-- From related trails, two parallel iterations reach related solutions. -/
theorem iterate (spare : Nat) {t t' : Trail α} (trails : t.Alike V t') :
    Outcome.Alike E (Solution.Alike V G) (iterate d tolerance A B spare t)
      (iterate e tolerance A' B' spare t') := by
  induction spare generalizing t t' with
  | zero =>
    unfold TwoSided.iterate
    refine (parallel.round trails).bind fun round => ?_
    cases round with
    | stopped _ thetas sigmas gaps =>
      exact .ok ⟨thetas, sigmas, gaps, congrArg (· + 1) trails.rounds, rfl⟩
    | completed xs ys gaps => exact .ok ⟨xs, ys, gaps, congrArg (· + 1) trails.rounds, rfl⟩
  | succ spare ih =>
    unfold TwoSided.iterate
    refine (parallel.round trails).bind fun round => ?_
    cases round with
    | stopped _ thetas sigmas gaps =>
      exact .ok ⟨thetas, sigmas, gaps, congrArg (· + 1) trails.rounds, rfl⟩
    | completed xs ys gaps =>
      exact ih ⟨xs, .cons trails.x trails.earlierX, .cons ys trails.earlierY,
        congrArg (· + 1) trails.rounds⟩

end Parallel

end Iteration

end TwoSided

/-! ### Related equations -/

namespace Dioid.Alike

open TwoSided

variable {R : α → α → Prop} {d e : Dioid α} (alike : Dioid.Alike R d e)
  {A A' B B' x x' : Matrix α}

include alike

theorem halfStep (h : A.Alike R A') (k : B.Alike R B') (start : x.Alike R x') :
    Outcome.Alike (Error.Alike R d e) (HalfStep.Alike (Matrix.Alike R) R) (halfStep d A B x)
      (halfStep e A' B' x') := by
  refine (alike.matrixMul h start).bind fun target => ?_
  refine (alike.subsolution k target).bind fun greatest => ?_
  refine (alike.matrixMul k greatest).bind fun reached => ?_
  refine (alike.matrixMul (alike.pseudoInverse reached) h).bind fun comparison => ?_
  refine (alike.matrixMul comparison start).bind fun product => ?_
  exact (alike.centred greatest product.corner).bind fun vector => .ok ⟨vector, product.corner⟩

theorem parallel (h : A.Alike R A') (k : B.Alike R B') (tolerance : α) :
    Parallel (Matrix.Alike R) R (Error.Alike R d e) d e tolerance A B A' B' where
  right start := alike.halfStep h k start
  left start := alike.halfStep k h start
  closed gap := alike.approxEq tolerance gap alike.one
  seen := alike.matrixApproxEq tolerance

theorem startingVector {s s' : Settings α} (settings : s.Alike R s') (h : A.Alike R A') :
    Outcome.Alike (Error.Alike R d e) (Matrix.Alike R) (s.startingVector d A)
      (s'.startingVector e A') := by
  have initial := settings.initial
  unfold Settings.startingVector
  rw [← h.cols]
  generalize s.initial = given, s'.initial = given' at initial
  cases initial with
  | none =>
    have one_mem : e.one ∈ e := (alike.mem_iff alike.one).mp alike.one_mem
    rw [require_eq_ok_iff.mpr alike.one_mem, require_eq_ok_iff.mpr one_mem,
      Matrix.ones_of_pos d A.cols_pos, Matrix.ones_of_pos e A.cols_pos]
    exact .ok (Matrix.Alike.of_cells fun _ _ => alike.one)
  | some start =>
    simp only [← start.shape]
    exact (Alike.of_require Iff.rfl (.shape _)).bind fun _ => alike.checked start

theorem check {s s' : Settings α} (settings : s.Alike R s') (h : A.Alike R A')
    (k : B.Alike R B') :
    Outcome.Alike (Error.Alike R d e) (Matrix.Alike R) (s.check d A B) (s'.check e A' B') := by
  unfold Settings.check Settings.acceptsTolerance
  rw [← h.shape, ← k.shape, ← h.rows, ← k.rows, ← settings.maxIterations, ← settings.tolerance]
  refine (Alike.of_require Iff.rfl (.shape _)).bind fun _ => ?_
  refine (Alike.of_require Iff.rfl (.configuration _)).bind fun _ => ?_
  refine (Alike.of_require Iff.rfl (.configuration _)).bind fun _ => ?_
  refine (alike.validate h).bind fun _ => ?_
  exact (alike.validate k).bind fun _ => alike.startingVector settings h

/-- The solutions of related equations are related. -/
theorem solve {s s' : Settings α} (settings : s.Alike R s') (h : A.Alike R A')
    (k : B.Alike R B') :
    Outcome.Alike (Error.Alike R d e) (Solution.Alike (Matrix.Alike R) R) (s.solve d A B)
      (s'.solve e A' B') := by
  refine (alike.check settings h k).bind fun start => ?_
  rw [← settings.maxIterations, ← settings.tolerance]
  exact (alike.parallel h k s.tolerance).iterate _ ⟨start, .nil, .nil, rfl⟩

end Dioid.Alike

end TropicalAlgebra
