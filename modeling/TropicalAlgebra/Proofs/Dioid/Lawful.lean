import Mathlib.Algebra.Order.Kleene
import TropicalAlgebra.Proofs.Dioid.Valuation

/-!
# Lawful dioids

The laws are stated for the equality that the program computes with, the `==` of the scalars, which
has to be an equality on the elements only. Elements that are equal in this sense have one value,
and the values form an idempotent semiring.
-/

namespace TropicalAlgebra

namespace Dioid

variable {α : Type} [Scalar α]

/-- On the elements, `==` is an equality that sums and products respect. -/
structure RespectsEquality (d : Dioid α) : Prop where
  refl : ∀ {a}, a ∈ d → a == a
  symm : ∀ {a b}, a ∈ d → b ∈ d → a == b → b == a
  trans : ∀ {a b c}, a ∈ d → b ∈ d → c ∈ d → a == b → b == c → a == c
  add_congr : ∀ {a a' b b'}, a ∈ d → a' ∈ d → b ∈ d → b' ∈ d → a == a' → b == b' →
    d.add a b == d.add a' b'
  mul_congr : ∀ {a a' b b'}, a ∈ d → a' ∈ d → b ∈ d → b' ∈ d → a == a' → b == b' →
    d.mul a b == d.mul a' b'

/-- A commutative semiring whose sum always returns one of its operands. -/
structure Lawful (d : Dioid α) : Prop extends d.RespectsEquality where
  zero_mem : d.zero ∈ d
  one_mem : d.one ∈ d
  zero_ne_one : ¬ d.zero == d.one
  add_mem : ∀ {a b}, a ∈ d → b ∈ d → d.add a b ∈ d
  mul_mem : ∀ {a b}, a ∈ d → b ∈ d → d.mul a b ∈ d
  add_assoc : ∀ {a b c}, a ∈ d → b ∈ d → c ∈ d → d.add (d.add a b) c == d.add a (d.add b c)
  add_comm : ∀ {a b}, a ∈ d → b ∈ d → d.add a b == d.add b a
  add_idem : ∀ {a}, a ∈ d → d.add a a == a
  add_selects : ∀ {a b}, a ∈ d → b ∈ d → d.add a b == a ∨ d.add a b == b
  zero_add : ∀ {a}, a ∈ d → d.add d.zero a == a
  zero_mul : ∀ {a}, a ∈ d → d.mul d.zero a == d.zero
  mul_assoc : ∀ {a b c}, a ∈ d → b ∈ d → c ∈ d → d.mul (d.mul a b) c == d.mul a (d.mul b c)
  mul_comm : ∀ {a b}, a ∈ d → b ∈ d → d.mul a b == d.mul b a
  one_mul : ∀ {a}, a ∈ d → d.mul d.one a == a
  mul_add : ∀ {a b c}, a ∈ d → b ∈ d → c ∈ d →
    d.mul a (d.add b c) == d.add (d.mul a b) (d.mul a c)

/-- Products with an element other than zero can be cancelled. -/
def Cancellative (d : Dioid α) : Prop :=
  ∀ {a b c}, a ∈ d → b ∈ d → c ∈ d → ¬ a == d.zero → d.mul a b == d.mul a c → b == c

namespace Lawful

variable {d : Dioid α}

/-- Elements that are equal as scalars. -/
def setoid (law : d.Lawful) : Setoid { a // a ∈ d } where
  r a b := a.val == b.val
  iseqv :=
    { refl := fun a => law.refl a.2
      symm := fun {a b} => law.symm a.2 b.2
      trans := fun {a b c} => law.trans a.2 b.2 c.2 }

/-- The elements up to equality of scalars. -/
def Value (law : d.Lawful) : Type := Quotient law.setoid

variable (law : d.Lawful)

/-- The value of an element. -/
def ofElement (a : { a // a ∈ d }) : law.Value := Quotient.mk law.setoid a

theorem ofElement_eq_iff (a b : { a // a ∈ d }) :
    law.ofElement a = law.ofElement b ↔ a.val == b.val :=
  ⟨fun equal => Quotient.exact (s := law.setoid) equal, fun equal => Quotient.sound equal⟩

instance : Add law.Value :=
  ⟨Quotient.map₂ (fun a b => ⟨d.add a.1 b.1, law.add_mem a.2 b.2⟩)
    fun a a' h b b' k => law.add_congr a.2 a'.2 b.2 b'.2 h k⟩

instance : Mul law.Value :=
  ⟨Quotient.map₂ (fun a b => ⟨d.mul a.1 b.1, law.mul_mem a.2 b.2⟩)
    fun a a' h b b' k => law.mul_congr a.2 a'.2 b.2 b'.2 h k⟩

instance : Zero law.Value := ⟨law.ofElement ⟨d.zero, law.zero_mem⟩⟩

instance : One law.Value := ⟨law.ofElement ⟨d.one, law.one_mem⟩⟩

private theorem value_add_comm (x y : law.Value) : x + y = y + x := by
  induction x, y using Quotient.inductionOn₂ with
  | _ a b => exact Quotient.sound (law.add_comm a.2 b.2)

private theorem value_mul_comm (x y : law.Value) : x * y = y * x := by
  induction x, y using Quotient.inductionOn₂ with
  | _ a b => exact Quotient.sound (law.mul_comm a.2 b.2)

private theorem value_zero_add (x : law.Value) : 0 + x = x := by
  induction x using Quotient.inductionOn with
  | _ a => exact Quotient.sound (law.zero_add a.2)

private theorem value_zero_mul (x : law.Value) : 0 * x = 0 := by
  induction x using Quotient.inductionOn with
  | _ a => exact Quotient.sound (law.zero_mul a.2)

private theorem value_one_mul (x : law.Value) : 1 * x = x := by
  induction x using Quotient.inductionOn with
  | _ a => exact Quotient.sound (law.one_mul a.2)

private theorem value_mul_add (x y z : law.Value) : x * (y + z) = x * y + x * z := by
  induction x, y, z using Quotient.inductionOn₃ with
  | _ a b c => exact Quotient.sound (law.mul_add a.2 b.2 c.2)

instance : CommSemiring law.Value where
  add_assoc x y z := by
    induction x, y, z using Quotient.inductionOn₃ with
    | _ a b c => exact Quotient.sound (law.add_assoc a.2 b.2 c.2)
  zero_add := law.value_zero_add
  add_zero x := by rw [law.value_add_comm, law.value_zero_add]
  add_comm := law.value_add_comm
  nsmul := nsmulRec
  mul_assoc x y z := by
    induction x, y, z using Quotient.inductionOn₃ with
    | _ a b c => exact Quotient.sound (law.mul_assoc a.2 b.2 c.2)
  zero_mul := law.value_zero_mul
  mul_zero x := by rw [law.value_mul_comm, law.value_zero_mul]
  one_mul := law.value_one_mul
  mul_one x := by rw [law.value_mul_comm, law.value_one_mul]
  mul_comm := law.value_mul_comm
  left_distrib := law.value_mul_add
  right_distrib x y z := by
    rw [law.value_mul_comm, law.value_mul_add, law.value_mul_comm z, law.value_mul_comm z]

private theorem value_add_idem (x : law.Value) : x + x = x := by
  induction x using Quotient.inductionOn with
  | _ a => exact Quotient.sound (law.add_idem a.2)

instance : IdemCommSemiring law.Value where
  __ := IdemSemiring.ofSemiring law.value_add_idem
  mul_comm := law.value_mul_comm

theorem value_add_selects (x y : law.Value) : x + y = x ∨ x + y = y := by
  induction x, y using Quotient.inductionOn₂ with
  | _ a b => exact (law.add_selects a.2 b.2).imp (Quotient.sound ·) (Quotient.sound ·)

theorem value_zero_ne_one : (0 : law.Value) ≠ 1 := fun equal =>
  law.zero_ne_one ((law.ofElement_eq_iff _ _).mp equal)

/-- The elements of a lawful dioid with their values. -/
def valuation : d.Valuation law.Value where
  -- scalars outside the domain have no value of their own
  value a := if h : a ∈ d then law.ofElement ⟨a, h⟩ else 0
  zero_mem := law.zero_mem
  one_mem := law.one_mem
  add_mem := law.add_mem
  mul_mem := law.mul_mem
  value_zero := dif_pos law.zero_mem
  value_one := dif_pos law.one_mem
  value_add ha hb := by
    rw [dif_pos ha, dif_pos hb, dif_pos (law.add_mem ha hb)]
    rfl
  value_mul ha hb := by
    rw [dif_pos ha, dif_pos hb, dif_pos (law.mul_mem ha hb)]
    rfl
  beq_iff ha hb := by rw [dif_pos ha, dif_pos hb, law.ofElement_eq_iff]

theorem exists_value_eq (x : law.Value) : ∃ a ∈ d, law.valuation.value a = x := by
  induction x using Quotient.inductionOn with
  | _ a => exact ⟨a.1, a.2, dif_pos a.2⟩

theorem value_cancel (cancel : d.Cancellative) {x y z : law.Value} (nonzero : x ≠ 0)
    (equal : x * y = x * z) : y = z := by
  obtain ⟨a, ha, rfl⟩ := law.exists_value_eq x
  obtain ⟨b, hb, rfl⟩ := law.exists_value_eq y
  obtain ⟨c, hc, rfl⟩ := law.exists_value_eq z
  rw [← law.valuation.value_mul ha hb, ← law.valuation.value_mul ha hc,
    ← law.valuation.beq_iff (law.mul_mem ha hb) (law.mul_mem ha hc)] at equal
  rw [← law.valuation.beq_iff hb hc]
  -- a value other than zero belongs to an element other than zero
  refine cancel ha hb hc ?_ equal
  rwa [law.valuation.beq_iff ha law.zero_mem, law.valuation.value_zero]

end Lawful

/-- A dioid is lawful if its values are. -/
theorem Valuation.lawful {d : Dioid α} {β : Type} [IdemCommSemiring β] (ν : d.Valuation β)
    (selects : ∀ x y : β, x + y = x ∨ x + y = y) (zero_ne_one : (0 : β) ≠ 1) : d.Lawful where
  refl ha := (ν.beq_iff ha ha).mpr rfl
  symm ha hb h := (ν.beq_iff hb ha).mpr ((ν.beq_iff ha hb).mp h).symm
  trans ha hb hc h k :=
    (ν.beq_iff ha hc).mpr (((ν.beq_iff ha hb).mp h).trans ((ν.beq_iff hb hc).mp k))
  add_congr ha ha' hb hb' h k := by
    rw [ν.beq_iff ha ha'] at h
    rw [ν.beq_iff hb hb'] at k
    rw [ν.beq_iff (ν.add_mem ha hb) (ν.add_mem ha' hb'), ν.value_add ha hb, h, k,
      ν.value_add ha' hb']
  mul_congr ha ha' hb hb' h k := by
    rw [ν.beq_iff ha ha'] at h
    rw [ν.beq_iff hb hb'] at k
    rw [ν.beq_iff (ν.mul_mem ha hb) (ν.mul_mem ha' hb'), ν.value_mul ha hb, h, k,
      ν.value_mul ha' hb']
  zero_mem := ν.zero_mem
  one_mem := ν.one_mem
  zero_ne_one := by rwa [ν.beq_iff ν.zero_mem ν.one_mem, ν.value_zero, ν.value_one]
  add_mem := ν.add_mem
  mul_mem := ν.mul_mem
  add_assoc ha hb hc := by
    have hab := ν.add_mem ha hb
    have hbc := ν.add_mem hb hc
    rw [ν.beq_iff (ν.add_mem hab hc) (ν.add_mem ha hbc), ν.value_add hab hc, ν.value_add ha hb,
      ν.value_add ha hbc, ν.value_add hb hc, add_assoc]
  add_comm ha hb := by
    rw [ν.beq_iff (ν.add_mem ha hb) (ν.add_mem hb ha), ν.value_add ha hb, ν.value_add hb ha,
      add_comm]
  add_idem ha := by rw [ν.beq_iff (ν.add_mem ha ha) ha, ν.value_add ha ha, add_idem]
  add_selects ha hb := by
    rw [ν.beq_iff (ν.add_mem ha hb) ha, ν.beq_iff (ν.add_mem ha hb) hb, ν.value_add ha hb]
    exact selects _ _
  zero_add ha := by
    rw [ν.beq_iff (ν.add_mem ν.zero_mem ha) ha, ν.value_add ν.zero_mem ha, ν.value_zero, zero_add]
  zero_mul ha := by
    rw [ν.beq_iff (ν.mul_mem ν.zero_mem ha) ν.zero_mem, ν.value_mul ν.zero_mem ha, ν.value_zero,
      zero_mul]
  mul_assoc ha hb hc := by
    have hab := ν.mul_mem ha hb
    have hbc := ν.mul_mem hb hc
    rw [ν.beq_iff (ν.mul_mem hab hc) (ν.mul_mem ha hbc), ν.value_mul hab hc, ν.value_mul ha hb,
      ν.value_mul ha hbc, ν.value_mul hb hc, mul_assoc]
  mul_comm ha hb := by
    rw [ν.beq_iff (ν.mul_mem ha hb) (ν.mul_mem hb ha), ν.value_mul ha hb, ν.value_mul hb ha,
      mul_comm]
  one_mul ha := by
    rw [ν.beq_iff (ν.mul_mem ν.one_mem ha) ha, ν.value_mul ν.one_mem ha, ν.value_one, one_mul]
  mul_add ha hb hc := by
    have hab := ν.mul_mem ha hb
    have hac := ν.mul_mem ha hc
    have hbc := ν.add_mem hb hc
    rw [ν.beq_iff (ν.mul_mem ha hbc) (ν.add_mem hab hac), ν.value_mul ha hbc, ν.value_add hb hc,
      ν.value_add hab hac, ν.value_mul ha hb, ν.value_mul ha hc, mul_add]

end Dioid

end TropicalAlgebra
