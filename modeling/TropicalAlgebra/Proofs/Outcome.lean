import Mathlib.Data.List.Forall2
import Mathlib.Logic.Relation
import TropicalAlgebra.Error

/-!
# Outcomes of two runs

Two runs of one program on related operands end alike: both fail, with related errors, or both have
results, and these are related. To show this of a program is to show it of its steps.
-/

namespace TropicalAlgebra

namespace Outcome

variable {α β β' γ γ' : Type} {E : Error α → Error α → Prop} {R : β → β' → Prop}
  {S : γ → γ' → Prop}

/-- Both runs fail, with errors related by `E`, or both have results, related by `R`. -/
inductive Alike (E : Error α → Error α → Prop) (R : β → β' → Prop) :
    Outcome α β → Outcome α β' → Prop
  | error {e e' : Error α} (related : E e e') : Alike E R (.error e) (.error e')
  | ok {b : β} {b' : β'} (related : R b b') : Alike E R (.ok b) (.ok b')

namespace Alike

variable {x : Outcome α β} {x' : Outcome α β'}

theorem bind {f : β → Outcome α γ} {f' : β' → Outcome α γ'} (first : Alike E R x x')
    (next : ∀ {b b'}, R b b' → Alike E S (f b) (f' b')) : Alike E S (x >>= f) (x' >>= f') := by
  cases first with
  | error related => exact .error related
  | ok related => exact next related

theorem mono {E' : Error α → Error α → Prop} {R' : β → β' → Prop} (alike : Alike E R x x')
    (errors : ∀ {e e'}, E e e' → E' e e') (results : ∀ {b b'}, R b b' → R' b b') :
    Alike E' R' x x' := by
  cases alike with
  | error related => exact .error (errors related)
  | ok related => exact .ok (results related)

theorem flip (alike : Alike E R x x') :
    Alike (fun e e' => E e' e) (fun b b' => R b' b) x' x := by
  cases alike with
  | error related => exact .error related
  | ok related => exact .ok related

theorem comp {β'' : Type} {x'' : Outcome α β''} {F : Error α → Error α → Prop}
    {T : β' → β'' → Prop} (first : Alike E R x x') (second : Alike F T x' x'') :
    Alike (Relation.Comp E F) (Relation.Comp R T) x x'' := by
  cases first with
  | error related =>
    cases second with
    | error related' => exact .error ⟨_, related, related'⟩
  | ok related =>
    cases second with
    | ok related' => exact .ok ⟨_, related, related'⟩

theorem exists_ok {b : β} (alike : Alike E R x x') (computed : x = .ok b) :
    ∃ b', x' = .ok b' ∧ R b b' := by
  cases alike with
  | error _ => exact nomatch computed
  | ok related =>
    obtain rfl := Except.ok.inj computed
    exact ⟨_, rfl, related⟩

theorem exists_error {e : Error α} (alike : Alike E R x x') (failed : x = .error e) :
    ∃ e', x' = .error e' ∧ E e e' := by
  cases alike with
  | error related =>
    obtain rfl := Except.error.inj failed
    exact ⟨_, rfl, related⟩
  | ok _ => exact nomatch failed

/-- Runs that succeed together are compared by their results. -/
theorem of_ok (together : (∃ b, x = .ok b) ↔ ∃ b', x' = .ok b')
    (results : ∀ b b', x = .ok b → x' = .ok b' → R b b') : Alike (fun _ _ => True) R x x' := by
  cases x with
  | error e =>
    cases x' with
    | error e' => exact .error trivial
    | ok b' => exact nomatch together.mpr ⟨b', rfl⟩
  | ok b =>
    cases x' with
    | error e' => exact nomatch together.mp ⟨b, rfl⟩
    | ok b' => exact .ok (results b b' rfl rfl)

theorem of_require {p p' : Prop} [Decidable p] [Decidable p'] {e e' : Error α} (same : p ↔ p')
    (errors : E e e') : Alike E (fun _ _ => True) (require p e) (require p' e') := by
  by_cases holds : p
  · rw [require, require, if_pos holds, if_pos (same.mp holds)]
    exact .ok trivial
  · rw [require, require, if_neg holds, if_neg (mt same.mpr holds)]
    exact .error errors

variable {xs : List γ} {ys : List γ'}

theorem of_mapM {f : γ → Outcome α β} {g : γ' → Outcome α β'} (inputs : List.Forall₂ S xs ys)
    (each : ∀ {x y}, S x y → Alike E R (f x) (g y)) :
    Alike E (List.Forall₂ R) (xs.mapM f) (ys.mapM g) := by
  induction inputs with
  | nil => exact .ok .nil
  | cons first _ ih =>
    rw [List.mapM_cons, List.mapM_cons]
    exact (each first).bind fun head => ih.bind fun tail => .ok (.cons head tail)

theorem of_foldlM {f : β → γ → Outcome α β} {g : β' → γ' → Outcome α β'}
    (inputs : List.Forall₂ S xs ys) {b : β} {b' : β'} (start : R b b')
    (each : ∀ {b b' x y}, R b b' → S x y → Alike E R (f b x) (g b' y)) :
    Alike E R (xs.foldlM f b) (ys.foldlM g b') := by
  induction inputs generalizing b b' with
  | nil => exact .ok start
  | cons first _ ih =>
    rw [List.foldlM_cons, List.foldlM_cons]
    exact (each start first).bind ih

/-- What is known of successful runs can be added to a relation. -/
theorem and_ok {P : β → Prop} {P' : β' → Prop} (alike : Alike E R x x')
    (left : ∀ b, x = .ok b → P b) (right : ∀ b', x' = .ok b' → P' b') :
    Alike E (fun b b' => R b b' ∧ P b ∧ P' b') x x' := by
  cases alike with
  | error related => exact .error related
  | ok related => exact .ok ⟨related, left _ rfl, right _ rfl⟩

end Alike

/-! ### Runs of which one may fail alone -/

/-- If both runs have results, then these are related. -/
def Compatible (R : β → β' → Prop) (x : Outcome α β) (x' : Outcome α β') : Prop :=
  ∀ b b', x = .ok b → x' = .ok b' → R b b'

namespace Compatible

variable {x : Outcome α β} {x' : Outcome α β'}

theorem ok {b : β} {b' : β'} (related : R b b') :
    Compatible R (.ok b : Outcome α β) (.ok b') := by
  intro c c' same same'
  obtain rfl := Except.ok.inj same
  obtain rfl := Except.ok.inj same'
  exact related

theorem of_error_left (e : Error α) : Compatible R (.error e) x' := fun _ _ failed => nomatch failed

theorem of_error_right (e : Error α) : Compatible R x (.error e) :=
  fun _ _ _ failed => nomatch failed

theorem bind {f : β → Outcome α γ} {f' : β' → Outcome α γ'} (first : Compatible R x x')
    (next : ∀ {b b'}, R b b' → Compatible S (f b) (f' b')) :
    Compatible S (x >>= f) (x' >>= f') := by
  intro c c' computed computed'
  obtain ⟨b, hb, rest⟩ := bind_eq_ok_iff.mp computed
  obtain ⟨b', hb', rest'⟩ := bind_eq_ok_iff.mp computed'
  exact next (first b b' hb hb') c c' rest rest'

variable {xs : List γ} {ys : List γ'}

theorem of_mapM {f : γ → Outcome α β} {g : γ' → Outcome α β'} (inputs : List.Forall₂ S xs ys)
    (each : ∀ {x y}, S x y → Compatible R (f x) (g y)) :
    Compatible (List.Forall₂ R) (xs.mapM f) (ys.mapM g) := by
  induction inputs with
  | nil => exact .ok .nil
  | cons first _ ih =>
    rw [List.mapM_cons, List.mapM_cons]
    exact (each first).bind fun head => ih.bind fun tail => .ok (.cons head tail)

theorem of_foldlM {f : β → γ → Outcome α β} {g : β' → γ' → Outcome α β'}
    (inputs : List.Forall₂ S xs ys) {b : β} {b' : β'} (start : R b b')
    (each : ∀ {b b' x y}, R b b' → S x y → Compatible R (f b x) (g b' y)) :
    Compatible R (xs.foldlM f b) (ys.foldlM g b') := by
  induction inputs generalizing b b' with
  | nil => exact .ok start
  | cons first _ ih =>
    rw [List.foldlM_cons, List.foldlM_cons]
    exact (each start first).bind ih

end Compatible

/-- A traversal succeeds if each of its steps does, with the results of the steps. -/
theorem mapM_eq_ok_iff {f : γ → Outcome α β} {xs : List γ} {ys : List β} :
    xs.mapM f = .ok ys ↔ List.Forall₂ (fun x y => f x = .ok y) xs ys := by
  induction xs generalizing ys with
  | nil =>
    rw [List.forall₂_nil_left_iff]
    exact ⟨fun h => (Except.ok.inj h).symm, fun h => h ▸ rfl⟩
  | cons x xs ih =>
    rw [List.mapM_cons, bind_eq_ok_iff, List.forall₂_cons_left_iff]
    constructor
    · rintro ⟨y, first, rest⟩
      obtain ⟨tail, rest, built⟩ := bind_eq_ok_iff.mp rest
      exact ⟨y, tail, first, ih.mp rest, (Except.ok.inj built).symm⟩
    · rintro ⟨y, tail, first, rest, rfl⟩
      exact ⟨y, first, bind_eq_ok_iff.mpr ⟨tail, ih.mpr rest, rfl⟩⟩

/-- The results of a traversal are those of its steps. -/
theorem mem_iff_of_mapM {f : γ → Outcome α β} {xs : List γ} {ys : List β}
    (returned : xs.mapM f = .ok ys) {y : β} : y ∈ ys ↔ ∃ x ∈ xs, f x = .ok y := by
  have steps := mapM_eq_ok_iff.mp returned
  clear returned
  induction steps with
  | nil => simp
  | @cons x z xs zs first _ ih => simp [ih, first, eq_comm]

end Outcome

/-! ### Related lists -/

section Related

variable {β γ : Type} {R : β → γ → Prop} {xs : List β} {ys : List γ}

theorem rel_getElem? (related : List.Forall₂ R xs ys) (i : Nat) : Option.Rel R xs[i]? ys[i]? := by
  induction related generalizing i with
  | nil => exact .none
  | cons first _ ih =>
    cases i with
    | zero => exact .some first
    | succ i => exact ih i

theorem forall₂_toList {x : Option β} {y : Option γ} (related : Option.Rel R x y) :
    List.Forall₂ R x.toList y.toList := by
  cases related with
  | none => exact .nil
  | some related => exact .cons related .nil

theorem forall₂_getElem? (related : List.Forall₂ R xs ys) (i : Nat) :
    List.Forall₂ R xs[i]?.toList ys[i]?.toList :=
  forall₂_toList (rel_getElem? related i)

theorem forall₂_modify {f : β → β} {g : γ → γ} (each : ∀ b c, R b c → R (f b) (g c))
    (related : List.Forall₂ R xs ys) (i : Nat) :
    List.Forall₂ R (xs.modify i f) (ys.modify i g) := by
  induction related generalizing i with
  | nil => cases i <;> exact .nil
  | cons first rest ih =>
    cases i with
    | zero => exact .cons (each _ _ first) rest
    | succ i => exact .cons first (ih i)

end Related

end TropicalAlgebra
