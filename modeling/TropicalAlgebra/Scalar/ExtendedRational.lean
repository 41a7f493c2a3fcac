import TropicalAlgebra.Scalar

/-!
# Extended rationals

Exact scalars: the rational numbers with an infinity at each end. No result is rounded, so the
max-plus and the min-plus algebra over these scalars obey the laws of a dioid to the letter. Sums of
opposite infinities, quotients by zero and products of zero with an infinity occur in no algebra;
they are given values only to make the operations total.
-/

namespace TropicalAlgebra

/-- A rational number or one of the two infinities. -/
inductive ExtendedRational where
  | negInfinity
  | rational (q : Rat)
  | infinity
  deriving DecidableEq

namespace ExtendedRational

/-- An infinite term makes the sum infinite; of two the second decides. -/
def add : ExtendedRational → ExtendedRational → ExtendedRational
  | rational p, rational q => rational (p + q)
  | a, rational _ => a
  | _, b => b

def neg : ExtendedRational → ExtendedRational
  | negInfinity => infinity
  | rational q => rational (-q)
  | infinity => negInfinity

/-- `1`, `0` or `-1` for a scalar above, at or below zero. -/
def sign : ExtendedRational → Int
  | negInfinity => -1
  | rational q => q.num.sign
  | infinity => 1

/-- The infinity with the given sign, and zero for the sign zero. -/
def ofSign (s : Int) : ExtendedRational :=
  if 0 < s then infinity else if s < 0 then negInfinity else rational 0

def mul : ExtendedRational → ExtendedRational → ExtendedRational
  | rational p, rational q => rational (p * q)
  | a, b => ofSign (a.sign * b.sign)

/-- The reciprocal; that of an infinity is zero. -/
def inv : ExtendedRational → ExtendedRational
  | rational q => rational q⁻¹
  | _ => rational 0

/-- The order, from `-∞` through the rationals to `∞`. -/
def le : ExtendedRational → ExtendedRational → Bool
  | negInfinity, _ => true
  | rational p, rational q => decide (p ≤ q)
  | _, infinity => true
  | _, _ => false

instance : Add ExtendedRational := ⟨add⟩
instance : Neg ExtendedRational := ⟨neg⟩
instance : Sub ExtendedRational := ⟨fun a b => a + -b⟩
instance : Mul ExtendedRational := ⟨mul⟩
instance : Div ExtendedRational := ⟨fun a b => a * b.inv⟩
instance : LE ExtendedRational := ⟨fun a b => le a b = true⟩
instance : LT ExtendedRational := ⟨fun a b => ¬ b ≤ a⟩

instance (a b : ExtendedRational) : Decidable (a ≤ b) :=
  inferInstanceAs (Decidable (le a b = true))

instance (a b : ExtendedRational) : Decidable (a < b) :=
  inferInstanceAs (Decidable (¬ b ≤ a))

instance : Scalar ExtendedRational where
  ofInt n := rational n
  infinity := infinity
  decidableLT := inferInstance
  decidableLE := inferInstance

theorem le_refl (a : ExtendedRational) : a ≤ a := by
  cases a with
  | negInfinity => rfl
  | rational q => exact decide_eq_true Rat.le_refl
  | infinity => rfl

theorem le_trans {a b c : ExtendedRational} (hab : a ≤ b) (hbc : b ≤ c) : a ≤ c := by
  match a, b, c with
  | negInfinity, _, _ => rfl
  | rational p, rational q, rational r =>
      have hpq : p ≤ q := of_decide_eq_true hab
      have hqr : q ≤ r := of_decide_eq_true hbc
      exact decide_eq_true (Rat.le_trans hpq hqr)
  | rational _, _, infinity => rfl
  | rational _, infinity, rational _ => cases hbc
  | rational _, infinity, negInfinity => cases hbc
  | rational _, rational _, negInfinity => cases hbc
  | rational _, negInfinity, _ => cases hab
  | infinity, infinity, _ => exact hbc
  | infinity, rational _, _ => cases hab
  | infinity, negInfinity, _ => cases hab

theorem le_antisymm {a b : ExtendedRational} (hab : a ≤ b) (hba : b ≤ a) : a = b := by
  match a, b with
  | negInfinity, negInfinity => rfl
  | infinity, infinity => rfl
  | rational p, rational q =>
      have hpq : p ≤ q := of_decide_eq_true hab
      have hqp : q ≤ p := of_decide_eq_true hba
      rw [Rat.le_antisymm hpq hqp]
  | negInfinity, rational _ => cases hba
  | negInfinity, infinity => cases hba
  | rational _, infinity => cases hba
  | rational _, negInfinity => cases hab
  | infinity, rational _ => cases hab
  | infinity, negInfinity => cases hab

theorem le_infinity (a : ExtendedRational) : a ≤ infinity := by
  cases a <;> rfl

theorem le_total (a b : ExtendedRational) : a ≤ b ∨ b ≤ a := by
  match a, b with
  | negInfinity, _ => exact Or.inl rfl
  | _, negInfinity => exact Or.inr rfl
  | rational p, rational q =>
      exact (Rat.le_total (a := p) (b := q)).imp decide_eq_true decide_eq_true
  | a, infinity => exact Or.inl (le_infinity a)
  | infinity, b => exact Or.inr (le_infinity b)

end ExtendedRational

end TropicalAlgebra
