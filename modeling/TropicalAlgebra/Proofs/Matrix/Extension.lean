import TropicalAlgebra.Dioid.Tropical
import TropicalAlgebra.Proofs.Matrix.Powers

/-!
# Powers that are extended

A sequence of powers can be extended any number of times. What comes of it is the sequence that
reaches the highest of the exponents asked for, or the error that stands in its way: the order of
the extensions leaves no trace. Every sequence shows its powers by exponent, and lists them in
order.
-/

namespace TropicalAlgebra

namespace Powers

variable {α : Type} {P Q : Powers α}

section Extension

variable [Scalar α] {d : Dioid α}

/-- The sequence after it has been extended to each of the exponents in turn. -/
def extendedInTurn (d : Dioid α) (P : Powers α) (exponents : List Nat) : Outcome α (Powers α) :=
  exponents.foldlM (fun P n => P.extended d n) P

/-- What a number of further powers leaves as it was, and what it adds. -/
theorem advance_grows {count : Nat} (advanced : P.advance d count = .ok Q) :
    Q.base = P.base ∧ Q.withIdentity = P.withIdentity ∧ Q.highest = P.highest + count := by
  induction count generalizing P with
  | zero =>
    obtain rfl := Except.ok.inj advanced
    exact ⟨rfl, rfl, rfl⟩
  | succ count ih =>
    obtain ⟨R, stepped, advanced⟩ := bind_eq_ok_iff.mp advanced
    obtain ⟨next, -, pushed⟩ := bind_eq_ok_iff.mp stepped
    obtain rfl := Except.ok.inj pushed
    obtain ⟨base, flag, highest⟩ := ih advanced
    rw [highest_push] at highest
    exact ⟨base, flag, by omega⟩

theorem advance_add (P : Powers α) (m n : Nat) :
    P.advance d (m + n) = P.advance d m >>= fun Q => Q.advance d n := by
  -- a step comes off the front, as in `advance` itself
  induction m generalizing P with
  | zero =>
    rw [Nat.zero_add]
    rfl
  | succ m ih =>
    rw [Nat.succ_add, advance, advance, bind_assoc]
    exact bind_congr ih

/-- A sequence that reaches an exponent already stays as it is. -/
theorem extended_of_le {n : Nat} (reached : n ≤ P.highest) : P.extended d n = .ok P := by
  rw [extended, Nat.sub_eq_zero_of_le reached]
  rfl

/-- Two extensions in a row reach the higher of the two exponents. -/
theorem extended_extended (P : Powers α) (m n : Nat) :
    (P.extended d m >>= fun Q => Q.extended d n) = P.extended d (max m n) := by
  have steps : max m n - P.highest =
      (m - P.highest) + (n - (P.highest + (m - P.highest))) := by omega
  rw [extended, extended, steps, advance_add]
  cases advanced : P.advance d (m - P.highest) with
  | error e => rfl
  | ok Q =>
    obtain ⟨-, -, highest⟩ := advance_grows advanced
    rw [← highest]
    rfl

theorem extendedInTurn_eq (P : Powers α) (exponents : List Nat) :
    P.extendedInTurn d exponents = P.extended d (exponents.foldr max 0) := by
  induction exponents generalizing P with
  | nil => exact (extended_of_le (Nat.zero_le _)).symm
  | cons n exponents ih =>
    calc P.extendedInTurn d (n :: exponents)
        = P.extended d n >>= fun Q => Q.extendedInTurn d exponents := List.foldlM_cons
      _ = P.extended d n >>= fun Q => Q.extended d (exponents.foldr max 0) := bind_congr ih
      _ = P.extended d (max n (exponents.foldr max 0)) := P.extended_extended n _

end Extension

/-! ### What a sequence shows -/

theorem power?_zero (P : Powers α) :
    P.power? 0 = if P.withIdentity then some P.identity else none := by
  have inside : 0 < P.terms.size := Nat.zero_lt_of_lt P.two_le_size
  unfold power? identity
  cases P.withIdentity <;> simp [inside]

theorem power?_succ (P : Powers α) (k : Nat) : P.power? (k + 1) = P.terms[k + 1]? := by
  simp [power?]

theorem isSome_power?_iff (P : Powers α) (k : Nat) :
    (P.power? k).isSome ↔ k ≤ P.highest ∧ (k = 0 → P.withIdentity = true) := by
  have size := P.two_le_size
  cases k with
  | zero =>
    rw [power?_zero]
    cases P.withIdentity <;> simp
  | succ k =>
    simp [power?_succ, highest]
    omega

/-- A sequence lists its powers in the order of their exponents. -/
theorem getElem?_toList (P : Powers α) (i : Nat) :
    P.toList[i]? = P.power? (if P.withIdentity then i else i + 1) := by
  unfold toList
  cases flag : P.withIdentity with
  | false => simp [power?_succ, positive]
  | true =>
    cases i with
    | zero =>
      have inside : 0 < P.terms.size := Nat.zero_lt_of_lt P.two_le_size
      simp [power?_zero, flag, identity, inside]
    | succ i => simp [power?_succ]

theorem length_eq (P : Powers α) :
    P.length = if P.withIdentity then P.highest + 1 else P.highest := by
  have size := P.two_le_size
  unfold length highest
  split <;> omega

variable [Scalar α] {d : Dioid α}

/-- What is found in a sequence of the powers of `M` with the exponents up to `highest`. -/
structure Shows (d : Dioid α) (M : Matrix α) (withIdentity : Bool) (highest : Nat)
    (P : Powers α) : Prop where
  highest_eq : P.highest = highest
  isSome_iff : ∀ k, (P.power? k).isSome ↔ k ≤ highest ∧ (k = 0 → withIdentity = true)
  zero : ∀ A, P.power? 0 = some A → A = Matrix.identityOfPos d M.rows M.rows_pos
  one : P.power? 1 = some M
  succ : ∀ k A B, 1 ≤ k → P.power? k = some A → P.power? (k + 1) = some B → A.mul d M = .ok B
  length_eq : P.length = if withIdentity then highest + 1 else highest
  toList : ∀ i, P.toList[i]? = P.power? (if withIdentity then i else i + 1)
  length_toList : P.toList.length = P.length

theorem Successive.shows (successive : P.Successive d) :
    P.Shows d P.base P.withIdentity P.highest where
  highest_eq := rfl
  isSome_iff := P.isSome_power?_iff
  zero A shown := by
    rw [power?_zero] at shown
    split at shown
    · exact (Option.some.inj shown).symm.trans successive.identity
    · simp at shown
  one := (P.power?_succ 0).trans successive.first
  succ k A B positive power next := by
    obtain ⟨k, rfl⟩ := Nat.exists_eq_add_one.mpr positive
    rw [power?_succ, Array.getElem?_eq_some_iff] at power next
    obtain ⟨_, rfl⟩ := power
    obtain ⟨inside, rfl⟩ := next
    exact successive.next k inside
  length_eq := P.length_eq
  toList := P.getElem?_toList
  length_toList := P.length_toList

end Powers

namespace Matrix

variable {α : Type} [Scalar α]

/-- Whatever extensions a sequence of powers goes through, it becomes the sequence that reaches the
highest of the exponents, and if one of the extensions fails, then forming that sequence fails with
the same error. In every sequence each power from the second on is the one before it times the
matrix. -/
theorem powers_extendedInTurn (d : Dioid α) (M : Matrix α) {n : Nat} (positive : 1 ≤ n)
    (withIdentity : Bool) (exponents : List Nat) :
    (M.powers d n withIdentity >>= fun P => P.extendedInTurn d exponents) =
        M.powers d (max n (exponents.foldr max 0)) withIdentity ∧
      ∀ P, M.powers d (max n (exponents.foldr max 0)) withIdentity = .ok P →
        P.Shows d M withIdentity (max n (exponents.foldr max 0)) ∧
          ∀ m ≤ P.highest, P.extended d m = .ok P := by
  have nonzero : n ≠ 0 := Nat.one_le_iff_ne_zero.mp positive
  have nonzero' : max n (exponents.foldr max 0) ≠ 0 := by omega
  have formed {k : Nat} (h : k ≠ 0) : M.powers d k withIdentity =
      M.requireSquare >>= fun _ => (Powers.first d M withIdentity).extended d k := by
    rw [powers, require_eq_ok_iff.mpr h]
    rfl
  constructor
  · rw [formed nonzero, formed nonzero', bind_assoc]
    refine bind_congr fun _ => ?_
    rw [← Powers.extended_extended]
    exact bind_congr fun P => P.extendedInTurn_eq exponents
  · intro P computed
    obtain ⟨-, successive, base, -⟩ := Powers.successive_powers computed
    obtain ⟨_, -, extended⟩ := bind_eq_ok_iff.mp ((formed nonzero').symm.trans computed)
    obtain ⟨-, flag, highest⟩ := Powers.advance_grows extended
    have first : (Powers.first d M withIdentity).highest = 1 := rfl
    have flag : P.withIdentity = withIdentity := flag
    have reached : P.highest = max n (exponents.foldr max 0) := by omega
    have shows := successive.shows
    rw [base, flag, reached] at shows
    exact ⟨shows, fun m within => Powers.extended_of_le within⟩

/-- A loop that doubles. -/
def doubling : Matrix Float := .singleton 2

/-- A loop whose second power overflows. -/
def soaring : Matrix Float := .singleton 1e200

theorem powers_extendedInTurn_doubling :
    (∃ P, (doubling.powers .maxTimes 1 true >>= fun P => P.extendedInTurn .maxTimes [3, 2]) =
        .ok P ∧ P.power? 3 = some (.singleton 8) ∧ P.length = 4 ∧
          P.extended .maxTimes 2 = .ok P) ∧
      (soaring.powers .maxTimes 1 false >>= fun P => P.extendedInTurn .maxTimes [1, 3]) =
        .error (Dioid.maxTimes.domainError Scalar.infinity) := by
  obtain ⟨grown, shows⟩ := powers_extendedInTurn .maxTimes doubling (Nat.le_refl 1) true [3, 2]
  obtain ⟨failed, -⟩ := powers_extendedInTurn .maxTimes soaring (Nat.le_refl 1) false [1, 3]
  rw [grown, failed]
  constructor
  · obtain ⟨P, computed⟩ : ∃ P, doubling.powers .maxTimes 3 true = .ok P := ⟨_, rfl⟩
    obtain ⟨shown, extended⟩ := shows P computed
    have third : (doubling.powers .maxTimes 3 true).toOption.bind (·.power? 3) =
        some (.singleton 8) := by decide +kernel
    rw [computed] at third
    exact ⟨P, computed, third, shown.length_eq, extended 2 (by rw [shown.highest_eq]; decide)⟩
  · have refused : (match soaring.powers .maxTimes 3 false with
        | .ok _ => none
        | .error e => some e) = some (Dioid.maxTimes.domainError Scalar.infinity) := by
      decide +kernel
    split at refused
    next => simp at refused
    next e computed => exact computed.trans (congrArg _ (Option.some.inj refused))

end Matrix

end TropicalAlgebra
