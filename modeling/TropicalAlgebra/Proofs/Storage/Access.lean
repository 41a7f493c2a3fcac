import Mathlib.Data.List.FinRange
import TropicalAlgebra.Matrix
import TropicalAlgebra.Proofs.Outcome

/-!
# Access to stored cells

A list of cells that is read by position can be read past its end, and a position that is computed
can be too large for a machine word. A computation over such lists has two endings more than an
outcome has. What a number that is too large turns into depends on the build: the computation stops,
or the carry is dropped and it goes on with another position.
-/

namespace TropicalAlgebra

/-- Why a computation over stored cells stops: at a position that does not exist, at a number that
is too large for a word, or because it refuses its operands. -/
inductive Fault (α : Type) where
  | outOfRange
  | overflow
  | refused (cause : Error α)

/-- What a build makes of a number that is too large for a word. -/
inductive Overflow where
  | stops
  | wraps

/-- The result of a computation that reads cells by position. -/
abbrev Access (α β : Type) := Except (Fault α) β

variable {α β β' γ γ' δ : Type}

namespace Access

open TropicalAlgebra.Matrix (wordSize)

/-- An outcome as a computation that reads nothing out of range. -/
def of (x : Outcome α β) : Access α β := x.mapError Fault.refused

/-- What becomes of a computation, where refused operands are an outcome like any other. -/
def attempt : Access α β → Access α (Outcome α β)
  | .ok b => .ok (.ok b)
  | .error (.refused cause) => .ok (.error cause)
  | .error .outOfRange => .error .outOfRange
  | .error .overflow => .error .overflow

/-- A number that is kept in a word. -/
def word (w : Overflow) (n : Nat) : Access α Nat :=
  if n < wordSize then .ok n
  else match w with
    | .stops => .error .overflow
    | .wraps => .ok (n % wordSize)

/-- The position of entry `j` of row `i`, where each row has `cols` entries. -/
def position (w : Overflow) (i cols j : Nat) : Access α Nat := do
  let start ← word w (i * cols)
  word w (start + j)

/-- The entry at position `k`. -/
def read (xs : List β) (k : Nat) : Access α β :=
  match xs[k]? with
  | some x => .ok x
  | none => .error .outOfRange

/-- The entries at the positions `start, …, stop - 1`. -/
def slice (xs : List β) (start stop : Nat) : Access α (List β) :=
  if start ≤ stop ∧ stop ≤ xs.length then .ok ((xs.take stop).drop start) else .error .outOfRange

/-- The list with `x` at position `k`. -/
def write (xs : List β) (k : Nat) (x : β) : Access α (List β) :=
  if k < xs.length then .ok (xs.set k x) else .error .outOfRange

/-- The entries that `f` computes for the positions of a rectangle, row by row. -/
def rectangle (rows cols : Nat) (f : Nat → Nat → Access α β) : Access α (List β) := do
  let lines ← (List.range rows).mapM fun i => (List.range cols).mapM (f i)
  pure lines.flatten

/-! ### Sequencing -/

section Sequencing

variable {ε : Type} {x : Outcome α β}

@[simp] theorem pure_eq_ok (b : β) : (pure b : Except ε β) = .ok b := rfl

@[simp] theorem ok_bind (b : β) (f : β → Except ε γ) : Except.ok b >>= f = f b := rfl

@[simp] theorem error_bind (e : ε) (f : β → Except ε γ) : Except.error e >>= f = .error e := rfl

@[simp] theorem map_error (e : ε) (g : β → γ) : g <$> (.error e : Except ε β) = .error e := rfl

@[simp] theorem of_ok (b : β) : (of (.ok b) : Access α β) = .ok b := rfl

theorem of_mapM (f : γ → Outcome α β) (xs : List γ) :
    of (xs.mapM f) = xs.mapM fun x => of (f x) := by
  induction xs with
  | nil => rfl
  | cons x xs ih =>
    rw [List.mapM_cons, List.mapM_cons, ← ih]
    cases f x with
    | error e => rfl
    | ok b => cases xs.mapM f <;> rfl

end Sequencing

/-! ### Outcomes without positions -/

/-- A computation renders an outcome if both have results, related by `R`, or it refuses for the
cause that the outcome names. It ends in no other way. -/
inductive Renders (R : β → β' → Prop) : Access α β' → Outcome α β → Prop
  | refused (cause : Error α) : Renders R (.error (.refused cause)) (.error cause)
  | ok {b : β} {b' : β'} (related : R b b') : Renders R (.ok b') (.ok b)

namespace Renders

variable {R : β → β' → Prop} {S : γ → γ' → Prop} {x : Access α β'} {y : Outcome α β}

theorem bind {f : β' → Access α γ'} {g : β → Outcome α γ} (first : Renders R x y)
    (next : ∀ {b b'}, R b b' → Renders S (f b') (g b)) : Renders S (x >>= f) (y >>= g) := by
  cases first with
  | refused cause => exact .refused cause
  | ok related => exact next related

/-- The first of two steps, where it cannot be refused. -/
theorem bind_ok {b : β} {f : β' → Access α γ'} {z : Outcome α γ} (first : Renders R x (.ok b))
    (next : ∀ {b'}, R b b' → Renders S (f b') z) : Renders S (x >>= f) z := by
  cases first with
  | ok related => exact next related

theorem mono {T : β → β' → Prop} (renders : Renders R x y) (weaker : ∀ {b b'}, R b b' → T b b') :
    Renders T x y := by
  cases renders with
  | refused cause => exact .refused cause
  | ok related => exact .ok (weaker related)

theorem map {f : β' → γ'} {g : β → γ} (renders : Renders R x y)
    (maps : ∀ {b b'}, R b b' → S (g b) (f b')) : Renders S (f <$> x) (g <$> y) := by
  cases renders with
  | refused cause => exact .refused cause
  | ok related => exact .ok (maps related)

theorem of (y : Outcome α β) : Renders (· = ·) (Access.of y) y := by
  cases y with
  | error cause => exact .refused cause
  | ok b => exact .ok rfl

/-- What is known of the results of an outcome can be added to a relation. -/
theorem and_ok {P : β → Prop} (renders : Renders R x y) (holds : ∀ b, y = .ok b → P b) :
    Renders (fun b b' => R b b' ∧ P b) x y := by
  cases renders with
  | refused cause => exact .refused cause
  | ok related => exact .ok ⟨related, holds _ rfl⟩

/-- Traversals whose steps cannot be refused. -/
theorem mapM_ok {f : γ' → Access α β'} {g : γ → β} {xs : List γ} {xs' : List γ'}
    (inputs : List.Forall₂ S xs xs') (each : ∀ {c c'}, S c c' → Renders R (f c') (.ok (g c))) :
    Renders (List.Forall₂ R) (xs'.mapM f) (.ok (xs.map g)) := by
  induction inputs with
  | nil => exact .ok .nil
  | cons first _ ih =>
    rw [List.mapM_cons]
    exact (each first).bind_ok fun head => ih.bind_ok fun tail => .ok (.cons head tail)

theorem foldlM {f : β' → γ' → Access α β'} {g : β → γ → Outcome α β} {xs : List γ} {xs' : List γ'}
    (inputs : List.Forall₂ S xs xs') {b : β} {b' : β'} (start : R b b')
    (each : ∀ {b b' c c'}, R b b' → S c c' → Renders R (f b' c') (g b c)) :
    Renders R (xs'.foldlM f b') (xs.foldlM g b) := by
  induction inputs generalizing b b' with
  | nil => exact .ok start
  | cons first _ ih =>
    rw [List.foldlM_cons, List.foldlM_cons]
    exact (each start first).bind fun related => ih related

theorem exists_ok {b : β} (renders : Renders R x (.ok b)) : ∃ b', x = .ok b' ∧ R b b' := by
  cases renders with
  | ok related => exact ⟨_, rfl, related⟩

theorem attempt (renders : Renders R x y) :
    ∃ z, attempt x = .ok z ∧ Outcome.Alike (· = ·) R y z := by
  cases renders with
  | refused cause => exact ⟨.error cause, rfl, .error rfl⟩
  | ok related => exact ⟨.ok _, rfl, .ok related⟩

end Renders

/-! ### Words -/

section Words

variable {w : Overflow} {n i j rows cols : Nat}

theorem wordSize_pos : 0 < wordSize := by decide

theorem one_lt_wordSize : 1 < wordSize := by decide

theorem word_of_lt (fits : n < wordSize) : (word w n : Access α Nat) = .ok n := if_pos fits

theorem word_stops (large : wordSize ≤ n) : (word .stops n : Access α Nat) = .error .overflow :=
  if_neg (Nat.not_lt.mpr large)

theorem eq_of_word_stops {k : Nat} (kept : (word .stops n : Access α Nat) = .ok k) : k = n := by
  by_cases fits : n < wordSize
  · rw [word_of_lt fits] at kept
    exact (Except.ok.inj kept).symm
  · rw [word_stops (Nat.le_of_not_lt fits)] at kept
    exact nomatch kept

theorem word_wraps (n : Nat) : (word .wraps n : Access α Nat) = .ok (n % wordSize) := by
  by_cases fits : n < wordSize
  · rw [word_of_lt fits, Nat.mod_eq_of_lt fits]
  · exact if_neg fits

/-- If the number of cells fits a word, so do their positions. -/
theorem position_of_lt (hi : i < rows) (hj : j < cols) (fits : rows * cols < wordSize) :
    (position w i cols j : Access α Nat) = .ok (i * cols + j) := by
  have inside : i * cols + j < wordSize := (Matrix.offset_lt hi hj).trans fits
  have start : i * cols < wordSize := (Nat.le_add_right _ _).trans_lt inside
  rw [position, word_of_lt start, ok_bind, word_of_lt inside]

end Words

/-! ### Reading -/

section Reading

variable {xs : List β} {k : Nat}

theorem read_of_lt (h : k < xs.length) : (read xs k : Access α β) = .ok xs[k] := by
  simp [read, h]

theorem renders_read {R : β → γ → Prop} {ys : List γ} (entries : List.Forall₂ R xs ys)
    (h : k < xs.length) : Renders R (read ys k : Access α γ) (.ok xs[k]) := by
  rw [read_of_lt (entries.length_eq ▸ h)]
  exact .ok (entries.get h (entries.length_eq ▸ h))

theorem le_length_of_slice {start stop : Nat} {ys : List β}
    (found : (slice xs start stop : Access α (List β)) = .ok ys) : stop ≤ xs.length := by
  by_cases inside : start ≤ stop ∧ stop ≤ xs.length
  · exact inside.2
  · rw [slice, if_neg inside] at found
    exact nomatch found

theorem write_of_lt {x : β} (h : k < xs.length) :
    (write xs k x : Access α (List β)) = .ok (xs.set k x) := if_pos h

/-! ### Traversals -/

theorem mapM_range {n : Nat} {f : Nat → Access α γ} {g : Fin n → γ}
    (each : ∀ i : Fin n, f i = .ok (g i)) : (List.range n).mapM f = .ok (List.ofFn g) := by
  rw [← List.map_coe_finRange_eq_range, List.mapM_map, List.ofFn_eq_map]
  exact mapM_eq_ok_map fun i _ => each i

/-- Traversing a list by its positions is traversing its entries. -/
theorem mapM_positions {xs : List β} {f : Nat → Access α γ} {g : β → Access α γ}
    (each : ∀ i : Fin xs.length, f i = g (xs.get i)) :
    (List.range xs.length).mapM f = xs.mapM g := by
  have entries : f ∘ (Fin.val : Fin xs.length → Nat) = g ∘ xs.get := funext each
  rw [← List.map_coe_finRange_eq_range, List.mapM_map, entries, ← List.mapM_map, ← List.ofFn_eq_map,
    List.ofFn_get]

/-- A table of two lists that are read by position. -/
theorem rectangle_read (xs : List β) (ys : List γ) (f : β → γ → Access α δ) :
    (rectangle xs.length ys.length fun i j => do f (← read xs i) (← read ys j)) =
      List.flatten <$> xs.mapM fun x => ys.mapM (f x) := by
  have lines : ((List.range xs.length).mapM fun i => (List.range ys.length).mapM fun j => do
      f (← read xs i) (← read ys j)) = xs.mapM fun x => ys.mapM (f x) := by
    refine mapM_positions fun i => mapM_positions fun j => ?_
    simp [read_of_lt]
  rw [rectangle, lines]
  cases xs.mapM fun x => ys.mapM (f x) <;> rfl

theorem rectangle_eq_ok {m n : Nat} {f : Nat → Nat → Access α γ} {g : Fin m → Fin n → γ}
    (each : ∀ (i : Fin m) (j : Fin n), f i j = .ok (g i j)) :
    rectangle m n f = .ok (List.ofFn fun i => List.ofFn (g i)).flatten := by
  have lines : ((List.range m).mapM fun i => (List.range n).mapM (f i)) =
      .ok (List.ofFn fun i => List.ofFn (g i)) :=
    mapM_range fun i => mapM_range (each i)
  rw [rectangle, lines]
  rfl

end Reading

end Access

end TropicalAlgebra
