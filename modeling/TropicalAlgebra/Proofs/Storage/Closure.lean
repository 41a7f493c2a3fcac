import TropicalAlgebra.Closure.Star
import TropicalAlgebra.Proofs.Storage.Arithmetic

/-!
# Powers and closures of stored cells

The powers of a square matrix have its shape, so a word can count the cells of all of them if it can
count those of the matrix, and the diagonal of each of them can be read. Powers, traces, closures
and partial sums of stored cells are put together from products and sums, and do what they do on
matrices.
-/

namespace TropicalAlgebra

open Access Stored
open TropicalAlgebra.Matrix (wordSize)

variable {α : Type}

/-- Successive powers of `base`, the first of them with exponent zero. -/
structure StoredPowers (α : Type) where
  base : Stored α
  withIdentity : Bool
  terms : List (Stored α)

/-- The base and all powers are held as `n × n` matrices. -/
structure Powers.HeldAs (n : Nat) (P : Powers α) (Q : StoredPowers α) : Prop where
  base : P.base.HeldAs n n Q.base
  withIdentity : Q.withIdentity = P.withIdentity
  terms : List.Forall₂ (Matrix.HeldAs n n) P.terms.toList Q.terms

theorem Powers.HeldAs.positive {n : Nat} {P : Powers α} {Q : StoredPowers α} (held : P.HeldAs n Q) :
    List.Forall₂ (Matrix.HeldAs n n) P.positive Q.terms.tail := by
  rw [Powers.positive, ← List.drop_one, ← List.drop_one]
  exact List.forall₂_drop 1 held.terms

namespace StoredPowers

variable (w : Overflow)

/-- The powers that are shown. -/
def shown (P : StoredPowers α) : Access α (List (Stored α)) :=
  slice P.terms (if P.withIdentity then 0 else 1) P.terms.length

variable [Scalar α] (d : Dioid α)

def step (P : StoredPowers α) : Access α (StoredPowers α) := do
  let top ← read P.terms (P.terms.length - 1)
  let next ← top.mul w d P.base
  pure { P with terms := P.terms ++ [next] }

def advance : Nat → StoredPowers α → Access α (StoredPowers α)
  | 0, P => pure P
  | count + 1, P => do advance count (← P.step w d)

def extended (P : StoredPowers α) (n : Nat) : Access α (StoredPowers α) :=
  P.advance w d (n - (P.terms.length - 1))

/-- The sum of the powers with the exponents `0, …, k`, from left to right. -/
def sumUpTo (P : StoredPowers α) (k : Nat) : Access α (Stored α) := do
  let first ← read P.terms 0
  (P.terms.tail.take k).foldlM (Stored.add d) first

end StoredPowers

def Stored.requireSquare (S : Stored α) : Access α Unit :=
  of (require S.isSquare (.shape (.notSquare S.shape)))

/-- The powers of a square matrix up to the exponent `n`, which has to be positive. -/
def Stored.powers [Scalar α] (w : Overflow) (d : Dioid α) (S : Stored α) (n : Nat)
    (withIdentity : Bool) : Access α (StoredPowers α) := do
  S.requireSquare
  of (require (n ≠ 0) (.configuration .noPowers))
  let one ← identity w d S.rows
  StoredPowers.extended w d ⟨S, withIdentity, [one, S]⟩ n

/-- A matrix that is accepted as square is held as one. -/
theorem Stored.renders_requireSquare {M : Matrix α} {S : Stored α} (held : M.HeldIn S) :
    Renders (fun _ _ => M.HeldAs M.rows M.rows S) S.requireSquare M.requireSquare := by
  have same : S.requireSquare = of M.requireSquare := by
    rw [held.stored]
    rfl
  rw [same]
  refine ((Renders.of M.requireSquare).and_ok fun _ => require_eq_ok_iff.mp).mono ?_
  rintro _ _ ⟨-, square⟩
  exact ⟨held, rfl, (beq_iff_eq.mp square).symm⟩

namespace StoredPowers

variable {P : Powers α} {Q : StoredPowers α} {w : Overflow} {n : Nat}

theorem renders_shown (held : P.HeldAs n Q) :
    Renders (List.Forall₂ (Matrix.HeldAs n n)) Q.shown (.ok P.toList) := by
  have size := P.two_le_size
  have length : Q.terms.length = P.terms.size := held.terms.length_eq.symm
  have bound : (if P.withIdentity then 0 else 1) ≤ Q.terms.length := by
    rw [length]
    split <;> omega
  rw [shown, held.withIdentity, slice, if_pos ⟨bound, Nat.le_refl _⟩, List.take_length,
    Powers.toList]
  refine .ok ?_
  split
  · exact held.terms
  · rw [List.drop_one]
    exact held.positive

variable [Scalar α] (d : Dioid α)

theorem renders_step (held : P.HeldAs n Q) :
    Renders (Powers.HeldAs n) (Q.step w d) (P.step d) := by
  have size := P.two_le_size
  have length : Q.terms.length = P.terms.toList.length := held.terms.length_eq.symm
  have bound : P.terms.toList.length - 1 < P.terms.toList.length := by
    rw [Array.length_toList]
    omega
  have top : Renders (Matrix.HeldAs n n) (read Q.terms (Q.terms.length - 1))
      (.ok P.top : Outcome α (Matrix α)) := by
    rw [length]
    exact renders_read held.terms bound
  refine top.bind_ok fun top => ?_
  refine (renders_product d top held.base held.base.fits_shape).bind fun {next _} computed => ?_
  refine .ok ⟨held.base, held.withIdentity, ?_⟩
  rw [Powers.push, Array.toList_push]
  exact List.rel_append held.terms (.cons computed .nil)

theorem renders_advance (count : Nat) (held : P.HeldAs n Q) :
    Renders (Powers.HeldAs n) (Q.advance w d count) (P.advance d count) := by
  induction count generalizing P Q with
  | zero => exact .ok held
  | succ count ih => exact (renders_step d held).bind ih

theorem renders_extended (held : P.HeldAs n Q) (k : Nat) :
    Renders (Powers.HeldAs n) (Q.extended w d k) (P.extended d k) := by
  have length : Q.terms.length = P.terms.size := held.terms.length_eq.symm
  rw [extended, length]
  exact renders_advance d _ held

/-- Each extension may be over a dioid of its own. -/
theorem renders_extendedBy (held : P.HeldAs n Q) (extensions : List (Dioid α × Nat)) :
    Renders (Powers.HeldAs n)
      (extensions.foldlM (fun Q e => StoredPowers.extended w e.1 Q e.2) Q)
      (extensions.foldlM (fun P e => Powers.extended e.1 P e.2) P) := by
  refine Renders.foldlM (List.forall₂_same.mpr fun e _ => rfl) held fun held same => ?_
  subst same
  exact renders_extended _ held _

theorem renders_sumUpTo (held : P.HeldAs n Q) (k : Nat) :
    Renders (Matrix.HeldAs n n) (Q.sumUpTo d k) (P.sumUpTo d k) := by
  have first : Renders (Matrix.HeldAs n n) (read Q.terms 0)
      (.ok P.identity : Outcome α (Matrix α)) :=
    renders_read held.terms (Nat.zero_lt_of_lt P.two_le_size)
  refine first.bind_ok fun first => ?_
  exact Renders.foldlM (List.forall₂_take k held.positive) first
    fun total term => renders_add d total term.toHeldIn

end StoredPowers

theorem Stored.renders_powers [Scalar α] {w : Overflow} (d : Dioid α) {M : Matrix α} {S : Stored α}
    (held : M.HeldIn S) (n : Nat) (withIdentity : Bool) :
    Renders (Powers.HeldAs M.rows) (S.powers w d n withIdentity) (M.powers d n withIdentity) := by
  refine (renders_requireSquare held).bind fun square => (Renders.of _).bind fun _ => ?_
  have rows : S.rows = M.rows := by rw [held.stored, Matrix.rows_stored]
  rw [rows]
  refine (renders_identityOfPos d square.fits_shape M.rows_pos).bind_ok fun one => ?_
  exact StoredPowers.renders_extended d ⟨square, rfl, .cons one (.cons square .nil)⟩ n

/-! ### Traces -/

namespace Stored

variable [Scalar α] (w : Overflow) (d : Dioid α)

def diagonalSum (S : Stored α) : Access α α := d.sum <$> S.diagonal w

def trace (S : Stored α) : Access α α := do
  S.requireSquare
  S.diagonalSum w d

end Stored

namespace StoredPowers

variable [Scalar α] (w : Overflow) (d : Dioid α)

/-- The traces of the powers with the exponents from one on. -/
def traces (P : StoredPowers α) : Access α (List α) :=
  P.terms.tail.mapM (Stored.diagonalSum w d)

def traceSum (P : StoredPowers α) : Access α α := d.sum <$> P.traces w d

end StoredPowers

namespace Stored

variable [Scalar α] (w : Overflow) (d : Dioid α)

def traceSum (S : Stored α) : Access α α := do
  let P ← S.powers w d S.rows false
  P.traceSum w d

def spectralRadius (S : Stored α) : Access α α := do
  let P ← S.powers w d S.rows false
  let traces ← P.traces w d
  let means ← ((traces.zipIdx 1).filter fun w => !d.isZero w.1).mapM fun w => of (d.meanWeight w)
  pure (d.sum means)

/-! ### Closures -/

def star (S : Stored α) : Access α (Stored α) := do
  let P ← S.powers w d S.rows true
  let trace ← P.traceSum w d
  of (require (¬ d.dominates trace d.one) (.notWellDefined trace d.one))
  P.sumUpTo d (S.rows - 1)

/-- The closure, or else a sum of powers together with the greatest exponent in it. -/
def closure (S : Stored α) (highest : Option Nat) : Access α (Option Nat × Stored α) := do
  let P ← S.powers w d S.rows true
  let trace ← P.traceSum w d
  if d.dominates trace d.one then
    let k := highest.getD (S.cols - 1)
    let P ← P.extended w d k
    pure (some k, ← P.sumUpTo d k)
  else pure (none, ← P.sumUpTo d (S.rows - 1))

variable {w} {M : Matrix α} {S : Stored α} {n : Nat}

theorem renders_diagonalSum (held : M.HeldAs n n S) :
    Renders (· = ·) (S.diagonalSum w d) (.ok (M.diagonalSum d)) :=
  (renders_diagonal held).bind_ok fun same => .ok (same ▸ rfl)

theorem renders_trace (held : M.HeldIn S) : Renders (· = ·) (S.trace w d) (M.trace d) :=
  (renders_requireSquare held).bind fun square => renders_diagonalSum d square

end Stored

namespace StoredPowers

variable [Scalar α] {w : Overflow} (d : Dioid α) {P : Powers α} {Q : StoredPowers α} {n : Nat}

theorem renders_traces (held : P.HeldAs n Q) :
    Renders (· = ·) (Q.traces w d) (.ok (P.traces d)) :=
  (Renders.mapM_ok held.positive (renders_diagonalSum d)).mono fun same => by
    rwa [List.forall₂_eq_eq_eq] at same

theorem renders_traceSum (held : P.HeldAs n Q) :
    Renders (· = ·) (Q.traceSum w d) (.ok (P.traceSum d)) :=
  (renders_traces d held).bind_ok fun same => .ok (same ▸ rfl)

end StoredPowers

namespace Stored

variable [Scalar α] {w : Overflow} (d : Dioid α) {M : Matrix α} {S : Stored α}

theorem renders_traceSum (held : M.HeldIn S) :
    Renders (· = ·) (S.traceSum w d) (M.traceSum d) := by
  obtain rfl := held.stored
  exact (renders_powers d held M.rows false).bind fun powers =>
    StoredPowers.renders_traceSum d powers

theorem renders_spectralRadius (held : M.HeldIn S) :
    Renders (· = ·) (S.spectralRadius w d) (M.spectralRadius d) := by
  obtain rfl := held.stored
  refine (renders_powers d held M.rows false).bind fun {P _} powers => ?_
  refine (StoredPowers.renders_traces d powers).bind_ok fun same => ?_
  subst same
  rw [← of_mapM]
  exact (Renders.of ((P.cycleWeights d).mapM d.meanWeight)).bind fun same => .ok (same ▸ rfl)

theorem renders_star (held : M.HeldIn S) :
    Renders (Matrix.HeldAs M.rows M.rows) (S.star w d) (M.star d) := by
  obtain rfl := held.stored
  refine (renders_powers d held M.rows true).bind fun powers => ?_
  refine (StoredPowers.renders_traceSum d powers).bind_ok fun same => ?_
  subst same
  exact (Renders.of _).bind fun _ => StoredPowers.renders_sumUpTo d powers (M.rows - 1)

theorem renders_closure (held : M.HeldIn S) (highest : Option Nat) :
    Renders (fun c c' => c'.1 = c.highest? ∧ c.matrix.HeldIn c'.2)
      (S.closure w d highest) (M.closure d highest) := by
  obtain rfl := held.stored
  refine (renders_powers d held M.rows true).bind fun {P _} powers => ?_
  refine (StoredPowers.renders_traceSum d powers).bind_ok fun same => ?_
  subst same
  by_cases above : d.dominates (P.traceSum d) d.one
  · simp only [above, if_true]
    refine (StoredPowers.renders_extended d powers _).bind fun extended => ?_
    exact (StoredPowers.renders_sumUpTo d extended _).bind fun total =>
      .ok ⟨rfl, total.toHeldIn⟩
  · simp only [above]
    exact (StoredPowers.renders_sumUpTo d powers _).bind fun total => .ok ⟨rfl, total.toHeldIn⟩

end Stored

end TropicalAlgebra
