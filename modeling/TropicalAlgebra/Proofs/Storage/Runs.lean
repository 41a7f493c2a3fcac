import TropicalAlgebra.Dioid.Tropical
import TropicalAlgebra.Proofs.Storage.Fitting
import TropicalAlgebra.Proofs.Storage.Sequence
import TropicalAlgebra.Scalar.ExtendedRational

/-!
# Runs over stored matrices

Matrices come from constructors and operations, and operations take matrices that are already there.
A run is a list of such calls. As long as a word can count the cells of every matrix that is asked
for, a run over stored matrices holds the matrices that it makes otherwise: the cells fill the
dimensions, and no position that does not exist is ever read. The first call that asks for more
cells stops a build that stops at overflow. A build that drops carries goes on, with a matrix whose
cells do not fill it.
-/

namespace TropicalAlgebra

open Access
open TropicalAlgebra.Matrix (wordSize HeldIn HeldAs)

variable {α : Type}

/-- A call of a constructor or an operation. Operands are the numbers of matrices that are there. -/
inductive MatrixCall (α : Type) where
  | ofList (rows cols : Nat) (data : List α)
  | ofRows (rows : List (List α))
  | columnVector (values : List α)
  | rowVector (values : List α)
  | singleton (value : α)
  | filled (rows cols : Nat) (value : α)
  | generate (rows cols : Nat) (f : Nat → Nat → α)
  | withElement (M i j : Nat) (value : α)
  | transpose (M : Nat)
  | lines (M : Nat)
  | validate (d : Dioid α) (M : Nat)
  | identity (d : Dioid α) (size : Nat)
  | zeros (d : Dioid α) (rows cols : Nat)
  | ones (d : Dioid α) (size : Nat)
  | mul (d : Dioid α) (A B : Nat)
  | scale (d : Dioid α) (M : Nat) (scalar : α)
  | add (d : Dioid α) (A B : Nat)
  | pseudoInverse (d : Dioid α) (M : Nat)
  /-- Powers that are then extended, each time over a dioid of its own. -/
  | powers (d : Dioid α) (M n : Nat) (withIdentity : Bool) (extensions : List (Dioid α × Nat))
  | trace (d : Dioid α) (M : Nat)
  | traceSum (d : Dioid α) (M : Nat)
  | spectralRadius (d : Dioid α) (M : Nat)
  | star (d : Dioid α) (M : Nat)
  | closure (d : Dioid α) (M : Nat) (highest : Option Nat)
  /-- A sequence of partial sums that is asked for one sum under each of the limits. -/
  | sequence (d : Dioid α) (M : Nat) (limits : List Nat)
  | solve (d : Dioid α) (A B : Nat) (initial : Option Nat) (maxIterations : Nat) (tolerance : α)
  | ofPowers (d : Dioid α) (points : List α) (range : ExponentRange)
  | ofDiagonal (d : Dioid α) (values : List α)
  | fitPolynomial (d : Dioid α) (s : Samples α) (range : ExponentRange)
  | fitRational (d : Dioid α) (s : Samples α) (range : ExponentRange)

/-- The cells that are laid out once a computation has succeeded. -/
def Outcome.cellsAfter {β : Type} (x : Outcome α β) (count : Nat) : Nat :=
  match x with
  | .ok _ => count
  | .error _ => 0

theorem Outcome.lt_of_cellsAfter_lt {β : Type} {x : Outcome α β} {count : Nat}
    (fits : x.cellsAfter count < wordSize) {b : β} (computed : x = .ok b) : count < wordSize := by
  rw [computed] at fits
  exact fits

theorem Outcome.of_le_cellsAfter {β : Type} {x : Outcome α β} {count : Nat}
    (large : wordSize ≤ x.cellsAfter count) : (∃ b, x = .ok b) ∧ wordSize ≤ count := by
  cases x with
  | error _ => exact absurd (wordSize_pos.trans_le large) (Nat.lt_irrefl 0)
  | ok b => exact ⟨⟨b, rfl⟩, large⟩

/-- Use matrix number `k`. There are no results if there is no such matrix. -/
def withOperand {β : Type} {m : Type → Type} [Pure m] (held : List β) (k : Nat)
    (use : β → m (List β)) : m (List β) :=
  match held[k]? with
  | some M => use M
  | none => pure []

namespace MatrixCall

variable [Scalar α]

/-- The matrices that a call makes. -/
def results (held : List (Matrix α)) : MatrixCall α → Outcome α (List (Matrix α))
  | ofList rows cols data => ([·]) <$> Matrix.ofList rows cols data
  | ofRows rows => ([·]) <$> Matrix.ofRows rows
  | columnVector values => ([·]) <$> Matrix.columnVector values
  | rowVector values => ([·]) <$> Matrix.rowVector values
  | singleton value => pure [Matrix.singleton value]
  | filled rows cols value => ([·]) <$> Matrix.filled rows cols value
  | generate rows cols f => ([·]) <$> Matrix.generate rows cols f
  | withElement M i j value => withOperand held M fun M => ([·]) <$> M.withElement i j value
  | transpose M => withOperand held M fun M => pure [M.transpose]
  | lines M => withOperand held M fun _ => pure []
  | validate d M => withOperand held M fun M => (fun _ => []) <$> M.validate d
  | identity d size => ([·]) <$> Matrix.identity d size
  | zeros d rows cols => ([·]) <$> Matrix.zeros d rows cols
  | ones d size => ([·]) <$> Matrix.ones d size
  | mul d A B => withOperand held A fun A => withOperand held B fun B => ([·]) <$> A.mul d B
  | scale d M scalar => withOperand held M fun M => ([·]) <$> M.scale d scalar
  | add d A B => withOperand held A fun A => withOperand held B fun B => ([·]) <$> A.add d B
  | pseudoInverse d M => withOperand held M fun M => pure [M.pseudoInverse d]
  | powers d M n withIdentity extensions => withOperand held M fun M => do
      let P ← M.powers d n withIdentity
      Powers.toList <$> extensions.foldlM (fun P e => P.extended e.1 e.2) P
  | trace d M => withOperand held M fun M => (fun _ => []) <$> M.trace d
  | traceSum d M => withOperand held M fun M => (fun _ => []) <$> M.traceSum d
  | spectralRadius d M => withOperand held M fun M => (fun _ => []) <$> M.spectralRadius d
  | star d M => withOperand held M fun M => ([·]) <$> M.star d
  | closure d M highest => withOperand held M fun M =>
      (fun c => [c.matrix]) <$> M.closure d highest
  | sequence d M limits => withOperand held M fun M =>
      SumIterator.itemsUnder limits <$> M.sumIterator d
  | solve d A B initial maxIterations tolerance =>
      withOperand held A fun A => withOperand held B fun B =>
        let run (initial : Option (Matrix α)) : Outcome α (List (Matrix α)) :=
          (fun s => [s.theta, s.sigma]) <$>
            TwoSided.Settings.solve { initial, maxIterations, tolerance } d A B
        match initial with
        | none => run none
        | some x => withOperand held x fun x => run (some x)
  | ofPowers d points range => ([·]) <$> Matrix.ofPowers d points range
  | ofDiagonal d values => ([·]) <$> Matrix.ofDiagonal d values
  | fitPolynomial d s range => (fun _ => []) <$> s.fitPolynomial d range
  | fitRational d s range => (fun _ => []) <$> s.fitRational d range

variable (w : Overflow)

/-- The stored matrices that a call makes. -/
def storedResults (held : List (Stored α)) : MatrixCall α → Access α (List (Stored α))
  | ofList rows cols data => ([·]) <$> Stored.ofList w rows cols data
  | ofRows rows => ([·]) <$> Stored.ofRows w rows
  | columnVector values => ([·]) <$> Stored.columnVector w values
  | rowVector values => ([·]) <$> Stored.rowVector w values
  | singleton value => pure [Stored.singleton value]
  | filled rows cols value => ([·]) <$> Stored.filled w rows cols value
  | generate rows cols f => ([·]) <$> Stored.generate w rows cols fun i j => .ok (f i j)
  | withElement M i j value => withOperand held M fun S => ([·]) <$> S.withElement w i j value
  | transpose M => withOperand held M fun S => ([·]) <$> S.transpose w
  | lines M => withOperand held M fun S => (fun _ => []) <$> S.lines w
  | validate d M => withOperand held M fun S => (fun _ => []) <$> S.validate d
  | identity d size => ([·]) <$> Stored.identity w d size
  | zeros d rows cols => ([·]) <$> Stored.zeros w d rows cols
  | ones d size => ([·]) <$> Stored.ones w d size
  | mul d A B => withOperand held A fun A => withOperand held B fun B => ([·]) <$> A.mul w d B
  | scale d M scalar => withOperand held M fun S => ([·]) <$> S.scale w d scalar
  | add d A B => withOperand held A fun A => withOperand held B fun B => ([·]) <$> A.add d B
  | pseudoInverse d M => withOperand held M fun S => ([·]) <$> S.pseudoInverse w d
  | powers d M n withIdentity extensions => withOperand held M fun S => do
      let P ← S.powers w d n withIdentity
      let P ← extensions.foldlM (fun P e => P.extended w e.1 e.2) P
      P.shown
  | trace d M => withOperand held M fun S => (fun _ => []) <$> S.trace w d
  | traceSum d M => withOperand held M fun S => (fun _ => []) <$> S.traceSum w d
  | spectralRadius d M => withOperand held M fun S => (fun _ => []) <$> S.spectralRadius w d
  | star d M => withOperand held M fun S => ([·]) <$> S.star w d
  | closure d M highest => withOperand held M fun S => (fun c => [c.2]) <$> S.closure w d highest
  | sequence d M limits => withOperand held M fun S => do
      let t ← S.sumIterator d
      t.itemsUnder w limits
  | solve d A B initial maxIterations tolerance =>
      withOperand held A fun A => withOperand held B fun B =>
        let run (initial : Option (Stored α)) : Access α (List (Stored α)) :=
          (fun s => [s.theta, s.sigma]) <$> Stored.solve w d initial maxIterations tolerance A B
        match initial with
        | none => run none
        | some x => withOperand held x fun x => run (some x)
  | ofPowers d points range => ([·]) <$> Stored.ofPowers w d points range
  | ofDiagonal d values => ([·]) <$> Stored.ofDiagonal w d values
  | fitPolynomial d s range => (fun _ => []) <$> Stored.fitPolynomial w d s range
  | fitRational d s range => (fun _ => []) <$> Stored.fitRational w d s range

/-- The matrices that are there after a call. A call that is refused makes none. -/
def step (held : List (Matrix α)) (call : MatrixCall α) : List (Matrix α) :=
  match call.results held with
  | .ok made => held ++ made
  | .error _ => held

/-- The stored matrices that are there after a call. -/
def storedStep (held : List (Stored α)) (call : MatrixCall α) : Access α (List (Stored α)) := do
  match ← attempt (call.storedResults w held) with
  | .ok made => pure (held ++ made)
  | .error _ => pure held

/-- The matrices that are there after all calls. -/
def run (calls : List (MatrixCall α)) : List (Matrix α) := calls.foldl step []

/-- The stored matrices that are there after all calls. -/
def storedRun (calls : List (MatrixCall α)) : Access α (List (Stored α)) :=
  calls.foldlM (storedStep w) []

/-! ### Room for the cells -/

/-- The greatest number of cells that a call lays out of itself. The cells of operands, and those of
results that have the shape of an operand, are not counted again. -/
def cellCount (held : List (Matrix α)) : MatrixCall α → Nat
  | ofList rows cols _ | filled rows cols _ | generate rows cols _ | zeros _ rows cols =>
      rows * cols
  | ofRows rows => Stored.laidOut rows
  | columnVector values | rowVector values => values.length
  | identity _ size => size * size
  | ones _ size => size
  | mul _ A B =>
      match held[A]?, held[B]? with
      | some A, some B => A.productCells B
      | _, _ => 0
  | ofPowers _ points range =>
      (range.check : Outcome α Unit).cellsAfter (points.length * range.length)
  | ofDiagonal d values => (values.mapM d.element).cellsAfter (values.length * values.length)
  | fitPolynomial _ s range =>
      Outcome.cellsAfter (do s.check; range.check) (s.points.length * range.length)
  | fitRational d s range =>
      max (Outcome.cellsAfter (do s.check; range.check) (s.points.length * range.length))
        (Outcome.cellsAfter
          (do s.check; let _ ← Matrix.ofPowers d s.points range; s.values.mapM d.element)
          (s.values.length * s.values.length))
  | _ => 0

/-- A word can count the cells that each of the calls lays out. -/
def Fits : List (Matrix α) → List (MatrixCall α) → Prop
  | _, [] => True
  | held, call :: calls => call.cellCount held < wordSize ∧ Fits (step held call) calls

instance decidableFits : (held : List (Matrix α)) → (calls : List (MatrixCall α)) →
    Decidable (Fits held calls)
  | _, [] => .isTrue trivial
  | held, call :: calls =>
      have := decidableFits (step held call) calls
      inferInstanceAs (Decidable (_ ∧ _))

variable {w} {held : List (Matrix α)} {stored : List (Stored α)}

section Results

variable {m n : Nat} {x : Access α (Stored α)} {y : Outcome α (Matrix α)}

omit [Scalar α] in
theorem renders_one (renders : Renders HeldIn x y) :
    Renders (List.Forall₂ HeldIn) (([·]) <$> x) (([·]) <$> y) :=
  renders.map fun made => .cons made .nil

omit [Scalar α] in
theorem renders_sized (renders : Renders (HeldAs m n) x y) :
    Renders (List.Forall₂ HeldIn) (([·]) <$> x) (([·]) <$> y) :=
  renders_one (renders.mono HeldAs.toHeldIn)

omit [Scalar α] in
theorem renders_none {β γ : Type} {R : β → γ → Prop} {x : Access α γ} {y : Outcome α β}
    (renders : Renders R x y) :
    Renders (List.Forall₂ HeldIn) ((fun _ => ([] : List (Stored α))) <$> x)
      ((fun _ => ([] : List (Matrix α))) <$> y) :=
  renders.map fun _ => .nil

omit [Scalar α] in
theorem renders_withOperand {use : Matrix α → Outcome α (List (Matrix α))}
    {useStored : Stored α → Access α (List (Stored α))} (all : List.Forall₂ HeldIn held stored)
    (k : Nat) (each : ∀ {M S}, held[k]? = some M → M.HeldIn S →
      Renders (List.Forall₂ HeldIn) (useStored S) (use M)) :
    Renders (List.Forall₂ HeldIn) (withOperand stored k useStored) (withOperand held k use) := by
  have found := rel_getElem? all k
  unfold withOperand
  generalize stored[k]? = operand at found
  cases there : held[k]? with
  | none =>
    rw [there] at found
    cases found
    exact .ok .nil
  | some M =>
    rw [there] at found
    cases found with
    | some one => exact each there one

omit [Scalar α] in
theorem withOperand_held {k : Nat} {M : Matrix α} (all : List.Forall₂ HeldIn held stored)
    (found : held[k]? = some M) :
    ∃ S, M.HeldIn S ∧
      ∀ use : Stored α → Access α (List (Stored α)), withOperand stored k use = use S := by
  have one := rel_getElem? all k
  rw [found] at one
  unfold withOperand
  generalize stored[k]? = operand at one
  cases one with
  | some one => exact ⟨_, one, fun _ => rfl⟩

end Results

theorem renders_results (all : List.Forall₂ HeldIn held stored) (call : MatrixCall α)
    (fits : call.cellCount held < wordSize) :
    Renders (List.Forall₂ HeldIn) (call.storedResults w stored) (call.results held) := by
  cases call with
  -- calls without operands
  | ofList rows cols data => exact renders_sized (Stored.renders_ofList data fits)
  | ofRows rows => exact renders_one (Stored.renders_ofRows rows fits)
  | columnVector values => exact renders_sized (Stored.renders_columnVector values fits)
  | rowVector values => exact renders_sized (Stored.renders_rowVector values fits)
  | singleton value => exact .ok (.cons (Stored.heldIn_singleton value) .nil)
  | filled rows cols value => exact renders_sized (Stored.renders_filled value fits)
  | generate rows cols f =>
    exact renders_sized (Stored.renders_generate fits fun _ _ _ _ => rfl)
  | identity d size => exact renders_sized (Stored.renders_identity d fits)
  | zeros d rows cols => exact renders_sized (Stored.renders_zeros d fits)
  | ones d size => exact renders_sized (Stored.renders_ones d fits)
  | ofPowers d points range =>
    exact renders_sized (Stored.renders_ofPowers points range fun accepted =>
      Outcome.lt_of_cellsAfter_lt fits accepted)
  | ofDiagonal d values =>
    exact renders_sized (Stored.renders_ofDiagonal values fun _ accepted =>
      Outcome.lt_of_cellsAfter_lt fits accepted)
  | fitPolynomial d s range =>
    refine renders_none (Stored.renders_fitPolynomial fun checked accepted => ?_)
    exact Outcome.lt_of_cellsAfter_lt fits (bind_eq_ok_iff.mpr ⟨_, checked, accepted⟩)
  | fitRational d s range =>
    obtain ⟨fitsPowers, fitsDiagonal⟩ := Nat.max_lt.mp fits
    refine renders_none (Stored.renders_fitRational (fun checked accepted => ?_)
      fun checked X powers elements accepted => ?_)
    · exact Outcome.lt_of_cellsAfter_lt fitsPowers (bind_eq_ok_iff.mpr ⟨_, checked, accepted⟩)
    · exact Outcome.lt_of_cellsAfter_lt fitsDiagonal (bind_eq_ok_iff.mpr
        ⟨_, checked, bind_eq_ok_iff.mpr ⟨X, powers, accepted⟩⟩)
  -- calls with one operand
  | withElement M i j value =>
    exact renders_withOperand all M fun _ one =>
      renders_sized (Stored.renders_withElement one.sized i j value)
  | transpose M =>
    exact renders_withOperand all M fun _ one => renders_sized (Stored.renders_transpose one.sized)
  | lines M =>
    refine renders_withOperand all M fun {M _} _ one => ?_
    obtain ⟨rfl, fits⟩ := one
    rw [Stored.lines_stored fits]
    exact .ok .nil
  | validate d M =>
    exact renders_withOperand all M fun _ one => renders_none (Stored.renders_validate d one)
  | scale d M scalar =>
    exact renders_withOperand all M fun _ one =>
      renders_sized (Stored.renders_scale d one.sized scalar)
  | pseudoInverse d M =>
    exact renders_withOperand all M fun _ one =>
      renders_sized (Stored.renders_pseudoInverse d one.sized)
  | powers d M n withIdentity extensions =>
    refine renders_withOperand all M fun _ one => ?_
    refine (Stored.renders_powers d one n withIdentity).bind fun powers => ?_
    rw [map_eq_pure_bind]
    refine (StoredPowers.renders_extendedBy powers extensions).bind fun powers => ?_
    exact (StoredPowers.renders_shown powers).mono fun shown => shown.imp fun _ _ => HeldAs.toHeldIn
  | trace d M =>
    exact renders_withOperand all M fun _ one => renders_none (Stored.renders_trace d one)
  | traceSum d M =>
    exact renders_withOperand all M fun _ one => renders_none (Stored.renders_traceSum d one)
  | spectralRadius d M =>
    exact renders_withOperand all M fun _ one => renders_none (Stored.renders_spectralRadius d one)
  | star d M =>
    exact renders_withOperand all M fun _ one => renders_sized (Stored.renders_star d one)
  | closure d M highest =>
    exact renders_withOperand all M fun _ one =>
      (Stored.renders_closure d one highest).map fun closure => .cons closure.2 .nil
  | sequence d M limits =>
    refine renders_withOperand all M fun _ one => ?_
    rw [map_eq_pure_bind]
    refine (Stored.renders_sumIterator d one).bind fun fields => ?_
    exact (fields.itemsUnder limits).mono fun items => items.imp fun _ _ => HeldAs.toHeldIn
  -- calls with several operands
  | mul d A B =>
    refine renders_withOperand all A fun foundA heldA =>
      renders_withOperand all B fun foundB heldB => ?_
    rw [cellCount, foundA, foundB] at fits
    exact renders_one (Stored.renders_mul d heldA heldB fits)
  | add d A B =>
    exact renders_withOperand all A fun _ heldA => renders_withOperand all B fun _ heldB =>
      renders_sized (Stored.renders_add d heldA.sized heldB)
  | solve d A B initial maxIterations tolerance =>
    refine renders_withOperand all A fun {A S} _ heldA =>
      renders_withOperand all B fun {B T} _ heldB => ?_
    have solved {start : Option (Matrix α)} {start' : Option (Stored α)}
        (given : Option.Rel HeldIn start start') :
        Renders (List.Forall₂ HeldIn)
          ((fun s : StoredSolution α => [s.theta, s.sigma]) <$>
            Stored.solve w d start' maxIterations tolerance S T)
          ((fun s : TwoSided.Solution α => [s.theta, s.sigma]) <$>
            TwoSided.Settings.solve ⟨start, maxIterations, tolerance⟩ d A B) :=
      (Stored.renders_solve d (s := ⟨start, maxIterations, tolerance⟩) given heldA heldB).map
        fun solution => .cons solution.theta.toHeldIn (.cons solution.sigma.toHeldIn .nil)
    cases initial with
    | none => exact solved .none
    | some x => exact renders_withOperand all x fun _ start => solved (.some start)

/-- The matrix that needs too many cells is laid out before anything is read or refused. -/
theorem results_stops (all : List.Forall₂ HeldIn held stored) (call : MatrixCall α)
    (large : wordSize ≤ call.cellCount held) :
    call.storedResults .stops stored = .error .overflow := by
  cases call with
  | ofList rows cols data => rw [storedResults, Stored.ofList_stops data large, map_error]
  | ofRows rows => rw [storedResults, Stored.ofRows_stops rows large, map_error]
  | columnVector values =>
    rw [storedResults, Stored.columnVector, Stored.ofList_stops values (by rwa [Nat.mul_one]),
      map_error]
  | rowVector values =>
    rw [storedResults, Stored.rowVector, Stored.ofList_stops values (by rwa [Nat.one_mul]),
      map_error]
  | filled rows cols value => rw [storedResults, Stored.filled_stops value large, map_error]
  | generate rows cols f => rw [storedResults, Stored.generate_stops _ large, map_error]
  | identity d size => rw [storedResults, Stored.identity, Stored.generate_stops _ large, map_error]
  | zeros d rows cols => rw [storedResults, Stored.zeros, Stored.filled_stops _ large, map_error]
  | ones d size =>
    rw [storedResults, Stored.ones, Stored.filled_stops _ (by rwa [Nat.mul_one]), map_error]
  | mul d A B =>
    simp only [cellCount] at large
    split at large
    next foundA foundB =>
      obtain ⟨S, heldA, useA⟩ := withOperand_held all foundA
      obtain ⟨T, heldB, useB⟩ := withOperand_held all foundB
      rw [storedResults, useA, useB, Stored.mul_stops d heldA heldB large, map_error]
    next => exact absurd (wordSize_pos.trans_le large) (Nat.lt_irrefl 0)
  | ofPowers d points range =>
    obtain ⟨⟨_, accepted⟩, large⟩ := Outcome.of_le_cellsAfter large
    rw [storedResults, Stored.ofPowers_stops accepted large, map_error]
  | ofDiagonal d values =>
    obtain ⟨⟨_, accepted⟩, large⟩ := Outcome.of_le_cellsAfter large
    rw [storedResults, Stored.ofDiagonal_stops accepted large, map_error]
  | fitPolynomial d s range =>
    obtain ⟨⟨_, accepted⟩, large⟩ := Outcome.of_le_cellsAfter large
    obtain ⟨_, checked, accepted⟩ := bind_eq_ok_iff.mp accepted
    rw [storedResults, Stored.fitPolynomial_stops checked accepted large, map_error]
  | fitRational d s range =>
    rw [storedResults]
    by_cases powers : Outcome.cellsAfter (do s.check; range.check : Outcome α Unit)
        (s.points.length * range.length) < wordSize
    · have diagonal := Nat.le_of_not_lt fun small =>
        Nat.not_lt_of_le large (Nat.max_lt.mpr ⟨powers, small⟩)
      obtain ⟨⟨elements, accepted⟩, large⟩ := Outcome.of_le_cellsAfter diagonal
      obtain ⟨_, checked, accepted⟩ := bind_eq_ok_iff.mp accepted
      obtain ⟨X, computed, accepted⟩ := bind_eq_ok_iff.mp accepted
      obtain ⟨_, ranged, -⟩ := bind_eq_ok_iff.mp computed
      have fits := Outcome.lt_of_cellsAfter_lt powers (bind_eq_ok_iff.mpr ⟨_, checked, ranged⟩)
      rw [Stored.fitRational_stops_diagonal checked fits computed accepted large, map_error]
    · obtain ⟨⟨_, accepted⟩, large⟩ := Outcome.of_le_cellsAfter (Nat.le_of_not_lt powers)
      obtain ⟨_, checked, accepted⟩ := bind_eq_ok_iff.mp accepted
      rw [Stored.fitRational_stops checked accepted large, map_error]
  -- no other call lays out a matrix of a new shape
  | _ => exact absurd (wordSize_pos.trans_le large) (Nat.lt_irrefl 0)

theorem storedStep_held (all : List.Forall₂ HeldIn held stored) {call : MatrixCall α}
    (fits : call.cellCount held < wordSize) :
    ∃ after, storedStep w stored call = .ok after ∧
      List.Forall₂ HeldIn (step held call) after := by
  obtain ⟨z, attempted, alike⟩ := (renders_results (w := w) all call fits).attempt
  rw [storedStep, attempted, ok_bind, step]
  generalize call.results held = y at alike
  cases alike with
  | error _ => exact ⟨stored, rfl, all⟩
  | ok made => exact ⟨_, rfl, List.rel_append all made⟩

theorem storedStep_stops (all : List.Forall₂ HeldIn held stored) {call : MatrixCall α}
    (large : wordSize ≤ call.cellCount held) :
    storedStep .stops stored call = .error .overflow := by
  rw [storedStep, results_stops all call large]
  rfl

/-- What a run holds, from any matrices on. -/
theorem steps_held {calls : List (MatrixCall α)} (all : List.Forall₂ HeldIn held stored)
    (fits : Fits held calls) :
    ∃ after, calls.foldlM (storedStep w) stored = .ok after ∧
      List.Forall₂ HeldIn (calls.foldl step held) after := by
  induction calls generalizing held stored with
  | nil => exact ⟨stored, rfl, all⟩
  | cons call calls ih =>
    obtain ⟨first, rest⟩ := fits
    obtain ⟨next, stepped, all⟩ := storedStep_held (w := w) all first
    rw [List.foldlM_cons, stepped, ok_bind]
    exact ih all rest

theorem steps_stop {calls : List (MatrixCall α)} (all : List.Forall₂ HeldIn held stored)
    (large : ¬ Fits held calls) :
    calls.foldlM (storedStep .stops) stored = .error .overflow := by
  induction calls generalizing held stored with
  | nil => exact absurd trivial large
  | cons call calls ih =>
    rw [List.foldlM_cons]
    by_cases first : call.cellCount held < wordSize
    · obtain ⟨next, stepped, all⟩ := storedStep_held (w := .stops) all first
      rw [stepped, ok_bind]
      exact ih all fun rest => large ⟨first, rest⟩
    · rw [storedStep_stops all (Nat.le_of_not_lt first), error_bind]

omit [Scalar α] in
/-- The stored forms of matrices do not depend on the build. -/
theorem eq_map_stored (all : List.Forall₂ HeldIn held stored) :
    stored = held.map Matrix.stored := by
  induction all with
  | nil => rfl
  | cons first _ ih => rw [List.map_cons, ← ih, first.stored]

/-- Whatever constructors and operations are called with whatever arguments, if a word can count the
cells that each call lays out, then no call overflows or reads a position that does not exist. Every
matrix that comes of the calls has rows, columns and a cell for each position, its cells and columns
are found exactly in range, its rows as well in a build that stops at overflow, all of them agree
with each other, and they are those of the matrix that the same calls make without positions. If a
word cannot count the cells of some call, a build that stops at overflow stops there. -/
theorem storedRun_inRange (calls : List (MatrixCall α)) :
    (Fits [] calls → ∃ held, (∀ w, storedRun w calls = .ok held) ∧
      (∀ S ∈ held, S.WellShaped ∧ S.Readable) ∧ List.Forall₂ Stored.ReadsAs held (run calls)) ∧
    (¬ Fits [] calls → storedRun .stops calls = .error .overflow) := by
  refine ⟨fun fits => ?_, steps_stop .nil⟩
  have ran (w : Overflow) : storedRun w calls = .ok ((run calls).map Matrix.stored) ∧
      ∀ M ∈ run calls, M.HeldIn M.stored := by
    obtain ⟨after, ran, all⟩ := steps_held (w := w) .nil fits
    obtain rfl := eq_map_stored all
    exact ⟨ran, List.forall₂_same.mp (List.forall₂_map_right_iff.mp all)⟩
  have each := (ran .stops).2
  refine ⟨_, fun w => (ran w).1, fun S member => ?_, ?_⟩
  · obtain ⟨M, made, rfl⟩ := List.mem_map.mp member
    exact ⟨(each M made).wellShaped, (each M made).readable⟩
  · rw [List.forall₂_map_left_iff]
    exact List.forall₂_same.mpr fun M made => (each M made).readsAs

section Instances

open ExtendedRational

/-- The product of a row with itself is refused, and the calls after it go on. -/
def rowCalls : List (MatrixCall ExtendedRational) :=
  [ofList 1 2 [rational 1, negInfinity], mul .maxPlus 0 0, pseudoInverse .maxPlus 0,
    mul .maxPlus 0 1]

theorem storedRun_inRange_rowCalls :
    (∃ held, (∀ w, storedRun w rowCalls = .ok held) ∧ (∀ S ∈ held, S.WellShaped ∧ S.Readable) ∧
      List.Forall₂ Stored.ReadsAs held (run rowCalls)) ∧
    storedRun .stops [ofList UInt32.size UInt32.size ([] : List ExtendedRational)] =
      .error .overflow :=
  ⟨(storedRun_inRange rowCalls).1 (by decide +kernel),
    (storedRun_inRange [ofList UInt32.size UInt32.size []]).2 (by decide +kernel)⟩

/-- A build that drops carries finds row `2 ^ 63` of a matrix with two rows, and it takes an empty
list for the cells of a matrix with `2 ^ 32` rows and as many columns. -/
theorem storedRun_wraps_past_end :
    ∃ S T : Stored ExtendedRational,
      storedRun .wraps [ofRows [[rational 1, rational 2], [rational 3, rational 4]],
        ofList UInt32.size UInt32.size []] = .ok [S, T] ∧
      S.rows ≤ wordSize / 2 ∧ S.row .wraps (wordSize / 2) = .ok [rational 1, rational 2] ∧
      ¬ T.WellShaped ∧ T.get? .wraps 0 0 = .error .outOfRange := by
  have built : Stored.ofList .wraps UInt32.size UInt32.size ([] : List ExtendedRational) =
      .ok ⟨UInt32.size, UInt32.size, []⟩ := rfl
  have unfilled := Stored.wellShaped_wraps_iff built
  exact ⟨⟨2, 2, [rational 1, rational 2, rational 3, rational 4]⟩, ⟨UInt32.size, UInt32.size, []⟩,
    rfl, by decide, rfl, fun shaped => absurd (unfilled.mp shaped) (by decide), rfl⟩

end Instances

end MatrixCall

end TropicalAlgebra
