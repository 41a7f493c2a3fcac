import TropicalAlgebra.AlgebraName
import TropicalAlgebra.Scalar

/-!
# Errors

Why an operation on scalars, matrices or samples has no result. Errors are causes; the wording of
each stands in one place, `Error.message`.
-/

namespace TropicalAlgebra

/-- The rows and columns of a matrix, as they are written in messages. -/
structure Shape where
  rows : Nat
  cols : Nat
  deriving DecidableEq

namespace Shape

def text (s : Shape) : String := s!"{s.rows}x{s.cols}"

end Shape

inductive OutOfBounds where
  | cell (i j : Nat) (shape : Shape)
  | row (i : Nat)
  | column (j : Nat)
  deriving DecidableEq

def OutOfBounds.text : OutOfBounds → String
  | cell i j shape => s!"index ({i}, {j}) out of bounds for a {shape.text} matrix"
  | row i => s!"row {i} out of bounds"
  | column j => s!"column {j} out of bounds"

/-- Two matrices that are to be combined and whose shapes have to fit. -/
inductive Pairing where
  | product
  | sum
  | twoSidedEquation
  deriving DecidableEq

def Pairing.text : Pairing → String
  | product => "A.cols != B.rows"
  | sum => "A and B must have the same shape"
  | twoSidedEquation => "two-sided equation"

/-- Ways in which the shape of the data does not fit. -/
inductive ShapeError where
  | empty (shape : Shape)
  | cellCount (shape : Shape) (count : Nat)
  | ragged (row count expected : Nat)
  | outOfBounds (position : OutOfBounds)
  | mismatch (pairing : Pairing) (left right : Shape)
  | notSquare (shape : Shape)
  | initialVector (rows : Nat) (shape : Shape)
  | coefficientVector (rows : Nat) (shape : Shape)
  | samples (points values : Nat)
  deriving DecidableEq

def ShapeError.text : ShapeError → String
  | empty shape => s!"matrix dimensions must be positive, got {shape.text}"
  | cellCount shape count =>
      s!"expected {shape.rows * shape.cols} elements for a {shape.text} matrix, got {count}"
  | ragged row count expected => s!"row {row} has {count} elements, expected {expected}"
  | outOfBounds position => position.text
  | mismatch pairing left right => s!"{pairing.text}: {left.text} vs {right.text}"
  | notSquare shape => s!"square matrix required, got {shape.text}"
  | initialVector rows shape => s!"initial vector must be {rows}x1, got {shape.text}"
  | coefficientVector rows shape => s!"expected {rows}x1 coefficient vector, got {shape.text}"
  | samples points values => s!"{points} sample points but {values} values"

/-- Parameters that an operation cannot be run with. -/
inductive ConfigurationError (α : Type) where
  | unknownAlgebra (text : String)
  | noPowers
  | noIterations
  | tolerance (value : α)
  | oneOutside (one : α) (algebra : String)
  | exponentOrder (left right : Int)
  | noDenominator
  | noPoints
  | noValues
  deriving DecidableEq

variable {α : Type}

def algebraList : String := ", ".intercalate (AlgebraName.all.map AlgebraName.text)

def ConfigurationError.text [Written α] : ConfigurationError α → String
  | unknownAlgebra text =>
      s!"unknown algebra '{text}', expected one of {algebraList}"
  | noPowers => "number of matrix powers must be at least 1"
  | noIterations => "max_iterations must be at least 1"
  | tolerance value => s!"tolerance must be finite and non-negative, got {Written.text value}"
  | oneOutside one algebra =>
      s!"one ({Written.text one}) is outside the {algebra} domain; supply an initial vector"
  | exponentOrder left right => s!"m_right ({right}) must not be less than m_left ({left})"
  | noDenominator => "exponent denominator d must be positive"
  | noPoints => "no sample points given"
  | noValues => "no sample values given"

/-- Why an operation has no result. -/
inductive Error (α : Type) where
  | shape (cause : ShapeError)
  | domain (algebra : String) (value : α)
  /-- The closure of a matrix diverges, since its power trace exceeds one. -/
  | notWellDefined (trace one : α)
  | configuration (cause : ConfigurationError α)
  deriving DecidableEq

def Error.message [Written α] : Error α → String
  | shape cause => s!"Shape mismatch: {cause.text}"
  | domain algebra value => s!"Value {Written.text value} is outside the {algebra} domain"
  | notWellDefined trace one =>
      s!"Kleene star is not well defined: Tr = {Written.text trace} exceeds {Written.text one}"
  | configuration cause => s!"Configuration error: {cause.text}"

/-- The result of an operation that may fail. -/
abbrev Outcome (α β : Type) := Except (Error α) β

/-- Fail with `e` unless `p` holds. -/
def require (p : Prop) [Decidable p] (e : Error α) : Outcome α Unit :=
  if p then .ok () else .error e

theorem require_eq_ok_iff {p : Prop} [Decidable p] {e : Error α} :
    require p e = .ok () ↔ p := by
  by_cases h : p <;> simp [require, h]

theorem bind_eq_ok_iff {ε β γ : Type} {x : Except ε β} {next : β → Except ε γ} {c : γ} :
    x >>= next = .ok c ↔ ∃ b, x = .ok b ∧ next b = .ok c := by
  cases x <;> simp [bind, Except.bind]

theorem require_bind_eq_ok_iff {β : Type} {p : Prop} [Decidable p] {e : Error α}
    {next : Unit → Outcome α β} {b : β} :
    require p e >>= next = .ok b ↔ p ∧ next () = .ok b := by
  by_cases h : p <;> simp [require, h, bind, Except.bind]

/-- A traversal succeeds if each of its steps does. -/
theorem mapM_eq_ok_map {ε β γ : Type} {f : β → Except ε γ} {g : β → γ} {xs : List β}
    (each : ∀ b ∈ xs, f b = .ok (g b)) : xs.mapM f = .ok (xs.map g) := by
  induction xs with
  | nil => rfl
  | cons b xs ih =>
    have rest := ih fun c hc => each c (List.mem_cons_of_mem b hc)
    simp [List.mapM_cons, each b List.mem_cons_self, rest, bind, Except.bind, pure, Except.pure]

end TropicalAlgebra
