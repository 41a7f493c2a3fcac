import TropicalAlgebra.Closure.Star
import TropicalAlgebra.Proofs.Matrix.Powers

/-!
# The closure and its truncations

A matrix has a closure exactly if its power trace does not exceed one. The variant that does not
refuse a diverging matrix returns the same closure, or else the sum of the powers up to a chosen
exponent, however that compares with the size of the matrix. None of this needs a law of the dioid:
all entry points form the same powers in the same order.
-/

namespace TropicalAlgebra

variable {α : Type} [Scalar α] {d : Dioid α}

/-! ### Powers one by one -/

namespace Matrix

/-- The power with exponent `k`; from the second on, the one before it times the matrix. -/
def power (d : Dioid α) (M : Matrix α) : Nat → Outcome α (Matrix α)
  | 0 => .ok (identityOfPos d M.rows M.rows_pos)
  | 1 => .ok M
  | k + 2 => do (← M.power d (k + 1)).mul d M

/-- The powers with the exponents `1, …, k`. -/
def positivePowers (d : Dioid α) (M : Matrix α) (k : Nat) : Outcome α (List (Matrix α)) :=
  (List.range' 1 k).mapM (M.power d)

/-- The sum of the powers with the exponents `0, …, k`, from left to right. -/
def sumOfPowers (d : Dioid α) (M : Matrix α) (k : Nat) : Outcome α (Matrix α) := do
  let powers ← M.positivePowers d k
  powers.foldlM (Matrix.add d) (identityOfPos d M.rows M.rows_pos)

variable {M : Matrix α} {k : Nat} {e : Error α}

theorem positivePowers_add (k count : Nat) :
    M.positivePowers d (k + count) = M.positivePowers d k >>= fun powers =>
      (powers ++ ·) <$> (List.range' (k + 1) count).mapM (M.power d) := by
  rw [positivePowers, ← List.range'_append_1, List.mapM_append, Nat.add_comm 1 k]
  rfl

/-- A power that cannot be formed is in the way of all that come after it. -/
theorem positivePowers_of_power_error (failed : M.power d (k + 1) = .error e)
    {powers : List (Matrix α)} (before : M.positivePowers d k = .ok powers) (count : Nat) :
    M.positivePowers d (k + (count + 1)) = .error e := by
  rw [positivePowers_add, before, List.range'_succ, List.mapM_cons, failed]
  rfl

end Matrix

namespace Powers

variable {P Q : Powers α} {M : Matrix α} {k n : Nat} {e : Error α}

theorem Successive.power (successive : P.Successive d) (base : P.base = M)
    (h : k < P.terms.size) : M.power d k = .ok P.terms[k] := by
  subst base
  induction k with
  | zero => exact congrArg Except.ok successive.identity.symm
  | succ k ih =>
    cases k with
    | zero =>
      have first := successive.first
      rw [Array.getElem?_eq_getElem h] at first
      exact congrArg Except.ok (Option.some.inj first).symm
    | succ k =>
      rw [Matrix.power, ih (by omega)]
      exact successive.next k h

theorem Successive.positivePowers (successive : P.Successive d) (base : P.base = M)
    (h : k < P.terms.size) : M.positivePowers d k = .ok (P.positive.take k) := by
  have each : ∀ i ∈ List.range' 1 k, M.power d i = .ok (P.terms.getD i P.base) := by
    intro i hi
    obtain ⟨_, high⟩ := List.mem_range'_1.mp hi
    rw [successive.power base (by omega), Array.getD_eq_getD_getElem?,
      Array.getElem?_eq_getElem (by omega), Option.getD_some]
  rw [Matrix.positivePowers, mapM_eq_ok_map each]
  congr 1
  apply List.ext_getElem
  · simp [positive]
    omega
  · intro i hi hi'
    have inside : 1 + i < P.terms.size := by
      simp only [List.length_map, List.length_range'] at hi
      omega
    have entry : P.terms[1 + i]? = some P.terms[1 + i] := Array.getElem?_eq_getElem inside
    simp [positive, entry, Nat.add_comm i 1]

theorem Successive.sumUpTo (successive : P.Successive d) (base : P.base = M)
    (h : k < P.terms.size) : P.sumUpTo d k = M.sumOfPowers d k := by
  rw [Matrix.sumOfPowers, successive.positivePowers base h, Powers.sumUpTo, successive.identity]
  subst base
  rfl

/-- A sequence cannot be advanced if one of the further powers cannot be formed. -/
theorem Successive.advance_error {count : Nat} (successive : P.Successive d) (base : P.base = M)
    (failed : P.advance d count = .error e) :
    M.positivePowers d (P.highest + count) = .error e := by
  induction count generalizing P with
  | zero => simp [Powers.advance, pure, Except.pure] at failed
  | succ count ih =>
    have further : M.power d (P.highest + 1) = P.top.mul d M := by
      obtain ⟨k, h⟩ := Nat.exists_eq_add_one.mpr P.highest_pos
      rw [h, Matrix.power, ← h, successive.power base P.highest_lt_size]
      rfl
    -- an error comes either from this power or from a later one
    cases product : P.top.mul d M with
    | error cause =>
      have stepped : P.step d = .error cause := by
        rw [Powers.step, base, product]
        rfl
      rw [Powers.advance, stepped] at failed
      obtain rfl := Except.error.inj failed
      exact Matrix.positivePowers_of_power_error (further.trans product)
        (successive.positivePowers base P.highest_lt_size) count
    | ok next =>
      have stepped : P.step d = .ok (P.push next) := by
        rw [Powers.step, base, product]
        rfl
      rw [Powers.advance, stepped] at failed
      have rest := ih (successive.step stepped).1 base failed
      rwa [highest_push, Nat.add_right_comm] at rest

/-- The powers up to `n` are those formed one by one, and so is the error if there is one. -/
theorem powers_of_positivePowers (square : M.requireSquare = .ok ()) (positive : n ≠ 0)
    (withIdentity : Bool) :
    match M.positivePowers d n with
    | .error e => M.powers d n withIdentity = .error e
    | .ok powers => ∃ P, M.powers d n withIdentity = .ok P ∧ P.positive = powers ∧
        P.Successive d ∧ P.base = M ∧ P.highest = n := by
  have start := successive_first (d := d) M withIdentity
  have formed : M.powers d n withIdentity = (first d M withIdentity).extended d n := by
    rw [Matrix.powers, square, require_eq_ok_iff.mpr positive]
    rfl
  cases advanced : (first d M withIdentity).extended d n with
  | error e =>
    have failed := start.advance_error (M := M) rfl advanced
    have exponent : (first d M withIdentity).highest + (n - (first d M withIdentity).highest) = n :=
      Nat.add_sub_cancel' (Nat.one_le_iff_ne_zero.mpr positive)
    rw [exponent] at failed
    rw [failed]
    exact formed.trans advanced
  | ok P =>
    obtain ⟨-, successive, base, size⟩ := successive_powers (formed.trans advanced)
    have all : P.positive.take n = P.positive :=
      List.take_of_length_le (by simp [Powers.positive, size])
    have powers := successive.positivePowers base (k := n) (by omega)
    rw [powers, all]
    exact ⟨P, formed.trans advanced, rfl, successive, base,
      by rw [highest, size, Nat.add_sub_cancel]⟩

/-- Whether `k` is below the stored powers or above them, the sum up to `k` is the sum of the powers
formed one by one. -/
theorem Successive.sumUpTo_extended (successive : P.Successive d) (base : P.base = M) (k : Nat) :
    (P.extended d k >>= fun Q => Q.sumUpTo d k) = M.sumOfPowers d k := by
  cases advanced : P.extended d k with
  | error e =>
    have failed := successive.advance_error base advanced
    -- below the highest stored power nothing is formed, so nothing can fail
    by_cases inside : k ≤ P.highest
    · rw [extended, Nat.sub_eq_zero_of_le inside] at advanced
      simp [Powers.advance, pure, Except.pure] at advanced
    · rw [Nat.add_sub_cancel' (by omega)] at failed
      rw [Matrix.sumOfPowers, failed]
      rfl
  | ok Q =>
    obtain ⟨further, same, size⟩ := successive.advance advanced
    have := P.highest_lt_size
    exact further.sumUpTo (same.trans base) (by omega)

end Powers

/-! ### Errors other than divergence -/

namespace Outcome

variable {β γ : Type}

/-- If there is an error, it is not that of a diverging closure. -/
def NeverDiverges (x : Outcome α β) : Prop := ∀ trace one, x ≠ .error (.notWellDefined trace one)

omit [Scalar α] in
theorem neverDiverges_ok (b : β) : NeverDiverges (α := α) (.ok b) := fun _ _ h => nomatch h

namespace NeverDiverges

omit [Scalar α]

theorem bind {x : Outcome α β} {next : β → Outcome α γ} (first : NeverDiverges x)
    (rest : ∀ b, NeverDiverges (next b)) : NeverDiverges (x >>= next) := by
  cases x with
  | error e => exact fun trace one h => first trace one (congrArg Except.error (Except.error.inj h))
  | ok b => exact rest b

theorem mapM {f : β → Outcome α γ} (each : ∀ b, NeverDiverges (f b)) (xs : List β) :
    NeverDiverges (xs.mapM f) := by
  induction xs with
  | nil => exact neverDiverges_ok []
  | cons x xs ih =>
    rw [List.mapM_cons]
    exact (each x).bind fun b => ih.bind fun bs => neverDiverges_ok (b :: bs)

theorem foldlM {f : γ → β → Outcome α γ} (each : ∀ c b, NeverDiverges (f c b)) (xs : List β)
    (start : γ) : NeverDiverges (xs.foldlM f start) := by
  induction xs generalizing start with
  | nil => exact neverDiverges_ok start
  | cons x xs ih =>
    rw [List.foldlM_cons]
    exact (each start x).bind ih

end NeverDiverges

end Outcome

namespace Matrix

open Outcome

variable {M : Matrix α} (A B : Matrix α) (k : Nat)

omit [Scalar α] in
theorem neverDiverges_checked : NeverDiverges (A.checked d) := by
  unfold checked validate
  split
  · exact fun _ _ h => nomatch h
  · exact neverDiverges_ok A

theorem neverDiverges_scale (a : α) : NeverDiverges (A.scale d a) := by
  have element : NeverDiverges (d.element a) := by
    unfold Dioid.element
    split
    · exact neverDiverges_ok a
    · exact fun _ _ h => nomatch h
  refine element.bind fun a => ?_
  split
  · exact neverDiverges_ok _
  · exact neverDiverges_checked _

theorem neverDiverges_mul : NeverDiverges (A.mul d B) := by
  unfold Matrix.mul
  split
  · exact neverDiverges_scale B _
  · split
    · exact neverDiverges_scale A _
    · split
      · exact neverDiverges_checked _
      · exact fun _ _ h => nomatch h

theorem neverDiverges_add : NeverDiverges (A.add d B) := by
  unfold Matrix.add
  split
  · exact neverDiverges_checked _
  · exact fun _ _ h => nomatch h

omit [Scalar α] in
theorem neverDiverges_requireSquare : NeverDiverges M.requireSquare := by
  unfold requireSquare require
  split
  · exact neverDiverges_ok ()
  · exact fun _ _ h => nomatch h

theorem neverDiverges_power : NeverDiverges (M.power d k) := by
  induction k with
  | zero => exact neverDiverges_ok _
  | succ k ih =>
    cases k with
    | zero => exact neverDiverges_ok M
    | succ k => exact ih.bind fun P => neverDiverges_mul P M

theorem neverDiverges_positivePowers : NeverDiverges (M.positivePowers d k) :=
  .mapM neverDiverges_power _

theorem neverDiverges_sumOfPowers : NeverDiverges (M.sumOfPowers d k) :=
  (neverDiverges_positivePowers k).bind fun powers => .foldlM neverDiverges_add powers _

/-! ### The closure and its variant -/

/-- Without the powers there is neither a trace nor a closure nor a truncation. -/
theorem closure_of_powers_error {e : Error α}
    (failed : ∀ withIdentity, M.powers d M.rows withIdentity = .error e) :
    M.traceSum d = .error e ∧ M.star d = .error e ∧
      ∀ highest, M.closure d highest = .error e := by
  refine ⟨?_, ?_, fun highest => ?_⟩
  · rw [traceSum, failed]
    rfl
  · rw [star, failed]
    rfl
  · rw [closure, failed]
    rfl

/-- Either there are no powers, or their trace decides between the closure and a truncation. -/
theorem closure_cases (d : Dioid α) (M : Matrix α) :
    (∃ e, (∀ t o, e ≠ .notWellDefined t o) ∧ M.traceSum d = .error e ∧ M.star d = .error e ∧
      ∀ highest, M.closure d highest = .error e) ∨
    (∃ t, M.traceSum d = .ok t ∧
      M.star d = (do
        require (¬ d.dominates t d.one) (.notWellDefined t d.one)
        M.sumOfPowers d (M.rows - 1)) ∧
      ∀ highest, M.closure d highest =
        if d.dominates t d.one then
          .upTo (highest.getD (M.rows - 1)) <$> M.sumOfPowers d (highest.getD (M.rows - 1))
        else .exact <$> M.sumOfPowers d (M.rows - 1)) := by
  have excluded {β : Type} {x : Outcome α β} {e : Error α} (never : NeverDiverges x)
      (failed : x = .error e) (t o : α) : e ≠ .notWellDefined t o :=
    fun diverges => never t o (failed.trans (congrArg Except.error diverges))
  cases square : M.requireSquare with
  | error e =>
    refine .inl ⟨e, excluded neverDiverges_requireSquare square, closure_of_powers_error ?_⟩
    intro withIdentity
    rw [powers, square]
    rfl
  | ok _ =>
    have size : M.rows = M.cols := beq_iff_eq.mp (require_eq_ok_iff.mp square)
    have formed :=
      Powers.powers_of_positivePowers (d := d) square (Nat.pos_iff_ne_zero.mp M.rows_pos)
    cases powers : M.positivePowers d M.rows with
    | error e =>
      rw [powers] at formed
      exact .inl ⟨e, excluded (neverDiverges_positivePowers _) powers,
        closure_of_powers_error formed⟩
    | ok terms =>
      rw [powers] at formed
      -- the trace is taken of powers without the identity, the closures of powers with it
      obtain ⟨P, formedP, same, -⟩ := formed false
      obtain ⟨Q, formedQ, rfl, successive, base, highestQ⟩ := formed true
      have trace : P.traceSum d = Q.traceSum d := by
        rw [Powers.traceSum, Powers.traces, same]
        rfl
      have total : Q.sumUpTo d (M.rows - 1) = M.sumOfPowers d (M.rows - 1) :=
        successive.sumUpTo base (by have := Q.highest_lt_size; omega)
      refine .inr ⟨Q.traceSum d, ?_, ?_, fun highest => ?_⟩
      · rw [traceSum, formedP, ← trace]
        rfl
      · rw [star, formedQ, ← total]
        rfl
      · rw [closure, formedQ, ← size, ← total, ← successive.sumUpTo_extended base]
        show (if _ then _ else _) = _
        split
        · cases Q.extended d (highest.getD (M.rows - 1)) <;> rfl
        · rfl

/-- A closure is the sum of the powers, and their trace does not exceed one. -/
theorem of_star_eq_ok {S : Matrix α} (closed : M.star d = .ok S) :
    ∃ t, M.traceSum d = .ok t ∧ d.dominates t d.one = false ∧
      M.sumOfPowers d (M.rows - 1) = .ok S := by
  obtain ⟨e, -, -, star, -⟩ | ⟨t, trace, star, -⟩ := closure_cases d M
  · exact nomatch star.symm.trans closed
  · obtain ⟨small, summed⟩ := require_bind_eq_ok_iff.mp (star.symm.trans closed)
    exact ⟨t, trace, Bool.eq_false_iff.mpr small, summed⟩

/-- The trace that is named exceeds one. -/
theorem of_star_eq_notWellDefined {t o : α} (refused : M.star d = .error (.notWellDefined t o)) :
    M.traceSum d = .ok t ∧ d.dominates t d.one = true := by
  obtain ⟨e, other, -, star, -⟩ | ⟨t', trace, star, -⟩ := closure_cases d M
  · exact absurd (Except.error.inj (star.symm.trans refused)) (other t o)
  · rw [star, require] at refused
    split at refused
    next => exact absurd refused (neverDiverges_sumOfPowers _ t o)
    next exceeds =>
      obtain ⟨rfl, -⟩ := Error.notWellDefined.inj (Except.error.inj refused)
      exact ⟨trace, Decidable.not_not.mp exceeds⟩

/-- The variant finds the closure exactly if there is one. There is none for its trace exactly if
the trace exceeds one, and then the variant sums the powers up to the exponent asked for, or up to
one less than the size of the matrix. Every other error is common to both. -/
theorem closure_agrees (d : Dioid α) (M : Matrix α) (highest : Option Nat) :
    (∀ S, M.closure d highest = .ok (.exact S) ↔ M.star d = .ok S) ∧
    (∀ t o, M.star d = .error (.notWellDefined t o) ↔
      M.traceSum d = .ok t ∧ d.dominates t d.one = true ∧ o = d.one) ∧
    (∀ t, M.traceSum d = .ok t → d.dominates t d.one = true →
      M.closure d highest =
        .upTo (highest.getD (M.rows - 1)) <$> M.sumOfPowers d (highest.getD (M.rows - 1))) ∧
    (∀ e, M.star d = .error e → (∀ t o, e ≠ .notWellDefined t o) →
      M.closure d highest = .error e) := by
  obtain ⟨e, other, trace, star, closure⟩ | ⟨t, trace, star, closure⟩ := closure_cases d M
  · rw [trace, star, closure]
    refine ⟨?_, ?_, ?_, ?_⟩
    · simp
    · simp [other]
    · simp
    · simp
  · by_cases exceeds : d.dominates t d.one = true
    · have refused : M.star d = .error (.notWellDefined t d.one) := by
        rw [star, require, if_neg (not_not_intro exceeds)]
        rfl
      rw [trace, refused, closure, if_pos exceeds]
      refine ⟨fun S => ?_, fun t' o => ?_, fun t' _ _ => rfl, fun e failed other => ?_⟩
      · cases M.sumOfPowers d (highest.getD (M.rows - 1)) <;> simp [Functor.map, Except.map]
      · simp only [Except.error.injEq, Error.notWellDefined.injEq, Except.ok.injEq]
        constructor
        · rintro ⟨ht, ho⟩
          exact ⟨ht, ht ▸ exceeds, ho.symm⟩
        · rintro ⟨ht, -, ho⟩
          exact ⟨ht, ho.symm⟩
      · exact absurd (Except.error.inj failed).symm (other t d.one)
    · have closed : M.star d = M.sumOfPowers d (M.rows - 1) := by
        rw [star, require, if_pos exceeds]
        rfl
      rw [trace, closed, closure, if_neg exceeds]
      refine ⟨fun S => ?_, fun t' o => ?_, fun t' same beyond => ?_, fun e failed _ => ?_⟩
      · cases M.sumOfPowers d (M.rows - 1) <;> simp [Functor.map, Except.map]
      · refine iff_of_false (neverDiverges_sumOfPowers _ t' o) ?_
        rintro ⟨same, beyond, -⟩
        exact exceeds (Except.ok.inj same ▸ beyond)
      · exact absurd (Except.ok.inj same ▸ beyond) exceeds
      · rw [failed]
        rfl

end Matrix

end TropicalAlgebra
