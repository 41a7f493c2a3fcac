import Mathlib.Data.Set.Defs
import TropicalAlgebra.Proofs.Dioid.Order

/-!
# Sums as joins

If sums of terms are associative, commutative and idempotent, then a sum is the least term above
both operands, whatever products do.
-/

namespace TropicalAlgebra

namespace Dioid

variable {α : Type} [Scalar α]

/-- Sums of terms are associative, commutative and idempotent, up to an equality that they
respect. -/
structure Joins (d : Dioid α) (terms : Set α) : Prop where
  add_term : ∀ {a b}, a ∈ terms → b ∈ terms → d.add a b ∈ terms
  refl : ∀ {a}, a ∈ terms → a == a
  symm : ∀ {a b}, a ∈ terms → b ∈ terms → a == b → b == a
  trans : ∀ {a b c}, a ∈ terms → b ∈ terms → c ∈ terms → a == b → b == c → a == c
  add_congr : ∀ {a a' b b'}, a ∈ terms → a' ∈ terms → b ∈ terms → b' ∈ terms → a == a' → b == b' →
    d.add a b == d.add a' b'
  add_assoc : ∀ {a b c}, a ∈ terms → b ∈ terms → c ∈ terms →
    d.add (d.add a b) c == d.add a (d.add b c)
  add_comm : ∀ {a b}, a ∈ terms → b ∈ terms → d.add a b == d.add b a
  add_idem : ∀ {a}, a ∈ terms → d.add a a == a

namespace Joins

variable {d : Dioid α} {terms : Set α} (law : d.Joins terms) {a a' b b' c : α}

include law

theorem le_of_beq (ha : a ∈ terms) (hb : b ∈ terms) (equal : a == b) : d.le a b := by
  have sum : d.add a b == d.add b b := law.add_congr ha hb hb hb equal (law.refl hb)
  exact law.trans (law.add_term ha hb) (law.add_term hb hb) hb sum (law.add_idem hb)

theorem le_refl (ha : a ∈ terms) : d.le a a := law.add_idem ha

theorem le_antisymm (ha : a ∈ terms) (hb : b ∈ terms) (low : d.le a b) (high : d.le b a) :
    a == b := by
  have hab := law.add_term ha hb
  have hba := law.add_term hb ha
  have left : a == d.add b a := law.symm hba ha high
  exact law.trans ha hab hb (law.trans ha hba hab left (law.add_comm hb ha)) low

theorem le_trans (ha : a ∈ terms) (hb : b ∈ terms) (hc : c ∈ terms) (first : d.le a b)
    (second : d.le b c) : d.le a c := by
  have hab := law.add_term ha hb
  have hbc := law.add_term hb hc
  have hac := law.add_term ha hc
  have habc := law.add_term ha hbc
  have hab_c := law.add_term hab hc
  -- a ⊕ c = a ⊕ (b ⊕ c) = (a ⊕ b) ⊕ c = b ⊕ c = c
  have widen : d.add a c == d.add a (d.add b c) :=
    law.add_congr ha ha hc hbc (law.refl ha) (law.symm hbc hc second)
  have regroup := law.symm hab_c habc (law.add_assoc ha hb hc)
  have absorb : d.add (d.add a b) c == d.add b c := law.add_congr hab hb hc hc first (law.refl hc)
  have rest := law.trans hab_c hbc hc absorb second
  exact law.trans hac habc hc widen (law.trans habc hab_c hc regroup rest)

theorem le_add_left (ha : a ∈ terms) (hb : b ∈ terms) : d.le a (d.add a b) := by
  have hab := law.add_term ha hb
  have haa := law.add_term ha ha
  have regroup := law.symm (law.add_term haa hb) (law.add_term ha hab) (law.add_assoc ha ha hb)
  have absorb : d.add (d.add a a) b == d.add a b :=
    law.add_congr haa ha hb hb (law.add_idem ha) (law.refl hb)
  exact law.trans (law.add_term ha hab) (law.add_term haa hb) hab regroup absorb

theorem le_add_right (ha : a ∈ terms) (hb : b ∈ terms) : d.le b (d.add a b) :=
  law.le_trans hb (law.add_term hb ha) (law.add_term ha hb) (law.le_add_left hb ha)
    (law.le_of_beq (law.add_term hb ha) (law.add_term ha hb) (law.add_comm hb ha))

theorem add_le (ha : a ∈ terms) (hb : b ∈ terms) (hc : c ∈ terms) (left : d.le a c)
    (right : d.le b c) : d.le (d.add a b) c := by
  have hbc := law.add_term hb hc
  have hac := law.add_term ha hc
  have absorb : d.add a (d.add b c) == d.add a c :=
    law.add_congr ha ha hbc hc (law.refl ha) right
  have rest := law.trans (law.add_term ha hbc) hac hc absorb left
  exact law.trans (law.add_term (law.add_term ha hb) hc) (law.add_term ha hbc) hc
    (law.add_assoc ha hb hc) rest

/-- A sum is the least term above its operands. -/
theorem add_le_iff (ha : a ∈ terms) (hb : b ∈ terms) (hc : c ∈ terms) :
    d.le (d.add a b) c ↔ d.le a c ∧ d.le b c := by
  have hab := law.add_term ha hb
  constructor
  · intro above
    exact ⟨law.le_trans ha hab hc (law.le_add_left ha hb) above,
      law.le_trans hb hab hc (law.le_add_right ha hb) above⟩
  · rintro ⟨left, right⟩
    exact law.add_le ha hb hc left right

theorem le_iff_of_beq (ha : a ∈ terms) (ha' : a' ∈ terms) (hb : b ∈ terms) (equal : a == a') :
    d.le a b ↔ d.le a' b :=
  ⟨law.le_trans ha' ha hb (law.le_of_beq ha' ha (law.symm ha ha' equal)),
    law.le_trans ha ha' hb (law.le_of_beq ha ha' equal)⟩

theorem foldl_add_le_iff {xs : List α} (members : ∀ b ∈ xs, b ∈ terms) (ha : a ∈ terms)
    (hc : c ∈ terms) : d.le (xs.foldl d.add a) c ↔ d.le a c ∧ ∀ b ∈ xs, d.le b c := by
  induction xs generalizing a with
  | nil => simp
  | cons b xs ih =>
    rw [List.forall_mem_cons] at members
    obtain ⟨hb, rest⟩ := members
    rw [List.foldl_cons, ih rest (law.add_term ha hb), law.add_le_iff ha hb hc,
      List.forall_mem_cons, and_assoc]

/-- The order does not tell equal terms apart. -/
theorem le_congr (ha : a ∈ terms) (ha' : a' ∈ terms) (hb : b ∈ terms) (hb' : b' ∈ terms)
    (left : a == a') (right : b == b') (below : d.le a' b') : d.le a b :=
  law.le_trans ha ha' hb (law.le_of_beq ha ha' left)
    (law.le_trans ha' hb' hb below (law.le_of_beq hb' hb (law.symm hb hb' right)))

theorem add_le_add (ha : a ∈ terms) (ha' : a' ∈ terms) (hb : b ∈ terms) (hb' : b' ∈ terms)
    (left : d.le a a') (right : d.le b b') : d.le (d.add a b) (d.add a' b') := by
  have sum := law.add_term ha' hb'
  exact law.add_le ha hb sum (law.le_trans ha ha' sum left (law.le_add_left ha' hb'))
    (law.le_trans hb hb' sum right (law.le_add_right ha' hb'))

end Joins

end Dioid

end TropicalAlgebra
