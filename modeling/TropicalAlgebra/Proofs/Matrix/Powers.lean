import TropicalAlgebra.Matrix.Powers

/-!
# Stored powers are successive

Each stored power from the second on is the one before it times the base, whatever the products do.
-/

namespace TropicalAlgebra

namespace Powers

variable {α : Type} [Scalar α] {d : Dioid α} {P Q : Powers α}

omit [Scalar α] in
theorem highest_lt_size (P : Powers α) : P.highest < P.terms.size :=
  Nat.sub_one_lt_of_lt P.two_le_size

omit [Scalar α] in
theorem highest_pos (P : Powers α) : 0 < P.highest := Nat.sub_pos_of_lt P.two_le_size

/-- The terms are the identity, the base and its further powers, formed from the left. -/
structure Successive (d : Dioid α) (P : Powers α) : Prop where
  identity : P.identity = Matrix.identityOfPos d P.base.rows P.base.rows_pos
  first : P.terms[1]? = some P.base
  next : ∀ k (h : k + 2 < P.terms.size), P.terms[k + 1].mul d P.base = .ok P.terms[k + 2]

theorem successive_first (M : Matrix α) (withIdentity : Bool) :
    (first d M withIdentity).Successive d where
  identity := rfl
  first := rfl
  next k h := by
    have size : k + 2 < 2 := h
    omega

theorem Successive.step (successive : P.Successive d) (stepped : P.step d = .ok Q) :
    Q.Successive d ∧ Q.base = P.base ∧ Q.terms.size = P.terms.size + 1 := by
  obtain ⟨next, product, pushed⟩ := bind_eq_ok_iff.mp stepped
  obtain rfl := Except.ok.inj pushed
  have size := P.two_le_size
  have old {k : Nat} (h : k < P.terms.size) : (P.push next).terms[k]? = P.terms[k]? := by
    rw [push, Array.getElem?_push_lt h, Array.getElem?_eq_getElem h]
  refine ⟨⟨?_, ?_, ?_⟩, rfl, by simp [push]⟩
  · have same : (P.push next).identity = P.identity := Array.getElem_push_lt (by omega)
    rw [same]
    exact successive.identity
  · rw [old (by omega)]
    exact successive.first
  · intro k h
    have bound : k + 2 < P.terms.size + 1 := by simpa [push] using h
    have left : (P.push next).terms[k + 1] = P.terms[k + 1] := Array.getElem_push_lt (by omega)
    rw [left]
    by_cases inside : k + 2 < P.terms.size
    · have right : (P.push next).terms[k + 2] = P.terms[k + 2] := Array.getElem_push_lt inside
      rw [right]
      exact successive.next k inside
    · have last : k + 2 = P.terms.size := by omega
      have right : (P.push next).terms[k + 2] = next := by simp [push, last]
      have top : P.top = P.terms[k + 1] := by simp [Powers.top, ← last]
      rw [right, ← top]
      exact product

theorem Successive.advance {count : Nat} (successive : P.Successive d)
    (advanced : P.advance d count = .ok Q) :
    Q.Successive d ∧ Q.base = P.base ∧ Q.terms.size = P.terms.size + count := by
  induction count generalizing P with
  | zero =>
    obtain rfl := Except.ok.inj advanced
    exact ⟨successive, rfl, rfl⟩
  | succ count ih =>
    obtain ⟨R, stepped, advanced⟩ := bind_eq_ok_iff.mp advanced
    obtain ⟨successiveR, baseR, sizeR⟩ := successive.step stepped
    obtain ⟨successiveQ, baseQ, sizeQ⟩ := ih successiveR advanced
    exact ⟨successiveQ, baseQ.trans baseR, by omega⟩

theorem successive_powers {M : Matrix α} {n : Nat} {withIdentity : Bool}
    (computed : M.powers d n withIdentity = .ok P) :
    M.rows = M.cols ∧ P.Successive d ∧ P.base = M ∧ P.terms.size = n + 1 := by
  obtain ⟨_, square, computed⟩ := bind_eq_ok_iff.mp computed
  obtain ⟨positive, extended⟩ := require_bind_eq_ok_iff.mp computed
  obtain ⟨successive, base, size⟩ := (successive_first M withIdentity).advance extended
  refine ⟨beq_iff_eq.mp (require_eq_ok_iff.mp square), successive, base, ?_⟩
  have start : (first d M withIdentity).terms.size = 2 := rfl
  have highest : (first d M withIdentity).highest = 1 := rfl
  omega

end Powers

end TropicalAlgebra
