import TropicalAlgebra.Proofs.Closure.Limit
import TropicalAlgebra.Proofs.Dioid.Order
import TropicalAlgebra.Proofs.Dioid.Semiring
import TropicalAlgebra.Proofs.Walks.Equations

/-!
# The closure as a fixed point

Over a lawful dioid the closure `S` of a matrix `M` solves `S = I ⊕ M ⊗ S = I ⊕ S ⊗ M`, is
idempotent and is its own closure. Multiplied by a right-hand side `B` it is the least solution of the linear
system `X = M ⊗ X ⊕ B`.
-/

namespace TropicalAlgebra

namespace Matrix

variable {α : Type} [Scalar α]

/-- A computation ends without an error, in a matrix that equals `S`. -/
def Yields (computation : Outcome α (Matrix α)) (S : Matrix α) : Prop :=
  ∃ T, computation = .ok T ∧ T == S

section Reading

variable {d : Dioid α} {β : Type} [CommSemiring β] {ν : d.Valuation β} {m n k : Nat}

theorem Reads.yields {S T : Matrix α} {F : Fin m → Fin n → β} {computation : Outcome α (Matrix α)}
    (readS : S.Reads ν F) (computed : computation = .ok T) (readT : T.Reads ν F) :
    Yields computation S :=
  ⟨T, computed, (readT.beq_iff readS).mpr rfl⟩

theorem Reads.identity {M : Matrix α} {F : WeightMatrix n β} (read : M.Reads ν F) :
    ∃ I, identity d M.rows = .ok I ∧ I.Reads ν (1 : WeightMatrix n β) := by
  obtain ⟨rfl, _⟩ := read
  refine ⟨identityOfPos d M.rows M.rows_pos, ?_, reads_one M.rows M.rows_pos⟩
  simp [Matrix.identity, generate, M.rows_pos, identityOfPos]

/-- A product followed by a sum. -/
theorem Reads.mul_add {A B C : Matrix α} {F : Fin m → Fin k → β} {G : Fin k → Fin n → β}
    {H : Fin m → Fin n → β} (readA : A.Reads ν F) (readB : B.Reads ν G) (readC : C.Reads ν H) :
    ∃ T, (A.mul d B >>= fun P => P.add d C) = .ok T ∧
      T.Reads ν fun i j => ∑ c, F i c * G c j + H i j := by
  obtain ⟨P, product, readP⟩ := readA.mul readB
  obtain ⟨T, total, readT⟩ := readP.add readC
  refine ⟨T, ?_, readT⟩
  simpa [product, bind, Except.bind] using total

/-- A product added to an identity. -/
theorem Reads.identity_add_mul {A B : Matrix α} {F G : WeightMatrix n β} (readA : A.Reads ν F)
    (readB : B.Reads ν G) :
    ∃ T, (do let I ← Matrix.identity d A.rows; I.add d (← A.mul d B)) = .ok T ∧
      T.Reads ν (1 + F * G : WeightMatrix n β) := by
  obtain ⟨I, identity, readI⟩ := readA.identity
  obtain ⟨P, product, readP⟩ := readA.mul readB
  obtain ⟨T, total, readT⟩ := readI.add readP
  refine ⟨T, ?_, readT⟩
  simpa [identity, product, bind, Except.bind] using total

end Reading

theorem isSquare_of_star_eq_ok {d : Dioid α} {M S : Matrix α} (closed : M.star d = .ok S) :
    M.rows = M.cols := by
  simp only [star, powers, requireSquare, bind_assoc, require_bind_eq_ok_iff] at closed
  exact beq_iff_eq.mp closed.1

/-- The closure of a matrix solves its equations, is idempotent and its own closure, and gives the
least solution of every system with this matrix. -/
theorem star_solves {d : Dioid α} (law : d.IsSemiring) {M S : Matrix α}
    (elements : ∀ a ∈ M.toList, a ∈ d) (closed : M.star d = .ok S) :
    Yields (do let I ← identity d M.rows; I.add d (← M.mul d S)) S ∧
    Yields (do let I ← identity d M.rows; I.add d (← S.mul d M)) S ∧
    Yields (S.mul d S) S ∧
    Yields (S.star d) S ∧
    ∀ B : Matrix α, B.rows = M.rows → (∀ b ∈ B.toList, b ∈ d) →
      ∃ X, S.mul d B = .ok X ∧
        Yields (M.mul d X >>= fun P => P.add d B) X ∧
        ∀ Y : Matrix α, Y.shape = B.shape → (∀ y ∈ Y.toList, y ∈ d) →
          ∃ Z, (M.mul d Y >>= fun P => P.add d B) = .ok Z ∧ (Z.le d Y → X.le d Y) := by
  obtain ⟨β, _, ν, selects⟩ := law.exists_valuation
  obtain ⟨F, read⟩ : ∃ F : WeightMatrix M.rows β, M.Reads ν F :=
    exists_reads ν elements rfl (isSquare_of_star_eq_ok closed).symm
  obtain ⟨noGain, readS⟩ := reads_star selects read closed
  have sameSize : S.rows = M.rows := readS.rows
  refine ⟨?_, ?_, ?_, ?_, ?_⟩
  · obtain ⟨T, computed, readT⟩ := read.identity_add_mul readS
    rw [← noGain.closureUpTo_eq_left] at readT
    exact readS.yields computed readT
  · obtain ⟨T, computed, readT⟩ := readS.identity_add_mul read
    rw [← noGain.closureUpTo_eq_right] at readT
    rw [← sameSize]
    exact readS.yields computed readT
  · obtain ⟨T, product, readT⟩ := readS.mul readS
    exact readS.yields product (noGain.closureUpTo_mul_self ▸ readT)
  · obtain ⟨T, closedAgain, readT⟩ := exists_star selects readS noGain.closure
    rw [noGain.closureUpTo_closure] at readT
    exact readS.yields closedAgain readT
  · intro B sameRows elementsB
    obtain ⟨G, readB⟩ := exists_reads ν elementsB sameRows rfl
    obtain ⟨X, product, readX⟩ := readS.mul readB
    refine ⟨X, product, ?_, ?_⟩
    · obtain ⟨T, computed, readT⟩ := read.mul_add readX readB
      have solved := congrArg (T.Reads ν) (noGain.closureUpTo_mul_eq G)
      exact readX.yields computed (solved.mpr readT)
    · intro Y sameShape elementsY
      obtain ⟨rows, cols⟩ := Shape.mk.inj sameShape
      obtain ⟨H, readY⟩ := exists_reads ν elementsY (rows.trans sameRows) cols
      obtain ⟨Z, computed, readZ⟩ := read.mul_add readY readB
      refine ⟨Z, computed, fun below => ?_⟩
      rw [readX.le_iff readY]
      rw [readZ.le_iff readY] at below
      -- the order of values is that of sums, so the inequality is an equation
      have solves := WeightMatrix.closureUpTo_mul_add_eq
        (funext₂ fun i j => add_eq_right_iff_le.mpr (below i j)) (M.rows - 1)
      exact fun i j => add_eq_right_iff_le.mp (congrFun₂ solves i j)

/-- Three vertices, where the round trip weighs nothing and the other cycle less than nothing. -/
def roundTrip : Matrix ExtendedRational :=
  .ofVectors #v[#v[.negInfinity, .rational 1, .rational 1],
    #v[.negInfinity, .negInfinity, .rational 1],
    #v[.rational (-2), .rational (-1), .negInfinity]]

/-- The best weights of walks in `roundTrip`. -/
def roundTripClosure : Matrix ExtendedRational :=
  .ofVectors #v[#v[.rational 0, .rational 1, .rational 2],
    #v[.rational (-1), .rational 0, .rational 1],
    #v[.rational (-2), .rational (-1), .rational 0]]

/-- One column of starting values, one of them missing. -/
def departures : Matrix ExtendedRational :=
  .ofVectors #v[#v[.rational 5], #v[.negInfinity], #v[.rational (1 / 2)]]

theorem star_solves_roundTrip :
    roundTrip.star .maxPlus = .ok roundTripClosure ∧
    Yields (do
      let I ← identity .maxPlus 3
      I.add .maxPlus (← roundTrip.mul .maxPlus roundTripClosure)) roundTripClosure ∧
    Yields (do
      let I ← identity .maxPlus 3
      I.add .maxPlus (← roundTripClosure.mul .maxPlus roundTrip)) roundTripClosure ∧
    Yields (roundTripClosure.mul .maxPlus roundTripClosure) roundTripClosure ∧
    Yields (roundTripClosure.star .maxPlus) roundTripClosure ∧
    ∃ X, roundTripClosure.mul .maxPlus departures = .ok X ∧
      Yields (roundTrip.mul .maxPlus X >>= fun P => P.add .maxPlus departures) X ∧
      ∀ Y : Matrix ExtendedRational, Y.shape = departures.shape →
        (∀ y ∈ Y.toList, y ∈ Dioid.maxPlus) →
        ∃ Z, (roundTrip.mul .maxPlus Y >>= fun P => P.add .maxPlus departures) = .ok Z ∧
          (Z.le .maxPlus Y → X.le .maxPlus Y) := by
  have law := (Dioid.Chart.lawful .maxPlus).isSemiring
  have closed : roundTrip.star .maxPlus = .ok roundTripClosure := by decide +kernel
  obtain ⟨left, right, idempotent, closedAgain, solves⟩ := star_solves law (by decide) closed
  obtain ⟨X, product, fixed, least⟩ := solves departures rfl (by decide +kernel)
  exact ⟨closed, left, right, idempotent, closedAgain, X, product, fixed, least⟩

end Matrix

end TropicalAlgebra
