import TropicalAlgebra.Proofs.Dioid.Exact
import TropicalAlgebra.Proofs.Dioid.Semiring
import TropicalAlgebra.Proofs.Matrix.PowersReading

/-!
# Matrices form a semiring

Over a dioid that is a semiring the stored matrices obey the laws of an idempotent semiring, in all
shapes that fit. A single cell is multiplied as a scalar and from the other side, and products with
a zero factor are left out; neither shows in a result. Hence powers multiply as they should.
-/

/-- An array of weights with `m` rows and `n` columns. -/
abbrev Weights (m n : Nat) (β : Type) := Matrix (Fin m) (Fin n) β

theorem Weights.add_self_eq {m n : Nat} {β : Type} [IdemCommSemiring β] (F : Weights m n β) :
    F + F = F := by
  funext i j
  exact add_idem (F i j)

namespace TropicalAlgebra

namespace Matrix

variable {α : Type} [Scalar α]

/-- Both computations end without an error, and in equal matrices. -/
def Agree (x y : Outcome α (Matrix α)) : Prop := ∃ X Y, x = .ok X ∧ y = .ok Y ∧ X == Y

/-! ### What a computation reads -/

section Computing

variable {d : Dioid α} {β : Type} [CommSemiring β] (ν : d.Valuation β) {m n k : Nat}

/-- The computation ends with a matrix that reads `F`. -/
def Computes (x : Outcome α (Matrix α)) (F : Weights m n β) : Prop :=
  ∃ M, x = .ok M ∧ M.Reads ν F

variable {ν} {x y : Outcome α (Matrix α)}

theorem Over.exists_computes {M : Matrix α} (sized : M.Over d m n) :
    ∃ F : Weights m n β, Computes ν (.ok M) F := by
  obtain ⟨F, read⟩ := exists_reads ν sized.elements sized.rows sized.cols
  exact ⟨F, M, rfl, read⟩

theorem Computes.exists_over {F : Weights m n β} (computes : Computes ν x F) :
    ∃ M, x = .ok M ∧ M.Over d m n := by
  obtain ⟨M, computed, read⟩ := computes
  exact ⟨M, computed, read.toOver⟩

theorem Computes.agree {F G : Weights m n β} (left : Computes ν x F) (right : Computes ν y G)
    (same : F = G) : Agree x y := by
  obtain ⟨X, computed, readX⟩ := left
  obtain ⟨Y, computed', readY⟩ := right
  exact ⟨X, Y, computed, computed', (readX.beq_iff readY).mpr same⟩

theorem Computes.mul {F : Weights m k β} {G : Weights k n β} (left : Computes ν x F)
    (right : Computes ν y G) : Computes ν (do (← x).mul d (← y)) (F * G) := by
  obtain ⟨X, rfl, readX⟩ := left
  obtain ⟨Y, rfl, readY⟩ := right
  exact readX.mul readY

theorem Computes.add {F G : Weights m n β} (left : Computes ν x F) (right : Computes ν y G) :
    Computes ν (do (← x).add d (← y)) (F + G) := by
  obtain ⟨X, rfl, readX⟩ := left
  obtain ⟨Y, rfl, readY⟩ := right
  exact readX.add readY

theorem computes_identity (pos : 0 < n) : Computes ν (identity d n) (1 : Weights n n β) :=
  ⟨identityOfPos d n pos, by simp [identity, generate, pos, identityOfPos], reads_one n pos⟩

theorem computes_zeros (rows : 0 < m) (cols : 0 < n) :
    Computes ν (zeros d m n) (0 : Weights m n β) := by
  refine ⟨ofFn m n rows cols fun _ _ => d.zero, dif_pos ⟨rows, cols⟩, ?_⟩
  exact reads_ofFn (fun _ _ => ν.zero_mem) fun _ _ => ν.value_zero

/-- The powers of a square matrix are stored under their exponents. -/
theorem exists_powers_computes {M : Matrix α} {F : WeightMatrix n β} (read : M.Reads ν F)
    {highest : Nat} (some : highest ≠ 0) :
    ∃ P, M.powers d highest true = .ok P ∧
      ∀ k ≤ highest, ∃ X, P.power? k = .some X ∧ Computes ν (.ok X) (F ^ k) := by
  obtain ⟨P, computed, readP, shown⟩ := Powers.reads_powers read some true
  refine ⟨P, computed, fun k below => ?_⟩
  have stored : k < P.terms.size := by
    have := readP.size
    omega
  refine ⟨P.terms[k], ?_, P.terms[k], rfl, readP.term k stored⟩
  simp [Powers.power?, shown, stored]

end Computing

end Matrix

/-! ### The laws -/

namespace Dioid

open TropicalAlgebra.Matrix

variable {α : Type} [Scalar α]

/-- The laws of an idempotent semiring for matrices of elements, in all shapes that fit. -/
structure MatrixSemiring (d : Dioid α) : Prop where
  mul_over : ∀ {m k n A B}, Over d m k A → Over d k n B → ∃ C, A.mul d B = .ok C ∧ C.Over d m n
  add_over : ∀ {m n A B}, Over d m n A → Over d m n B → ∃ C, A.add d B = .ok C ∧ C.Over d m n
  mul_assoc : ∀ {m k l n A B C}, Over d m k A → Over d k l B → Over d l n C →
    Agree (do (← A.mul d B).mul d C) (do A.mul d (← B.mul d C))
  mul_add : ∀ {m k n A B C}, Over d m k A → Over d k n B → Over d k n C →
    Agree (do A.mul d (← B.add d C)) (do (← A.mul d B).add d (← A.mul d C))
  add_mul : ∀ {m k n A B C}, Over d m k A → Over d m k B → Over d k n C →
    Agree (do (← A.add d B).mul d C) (do (← A.mul d C).add d (← B.mul d C))
  one_mul : ∀ {m n A}, Over d m n A → Agree (do (← identity d m).mul d A) (.ok A)
  mul_one : ∀ {m n A}, Over d m n A → Agree (do A.mul d (← identity d n)) (.ok A)
  zero_mul : ∀ {m n A} k, k ≠ 0 → Over d m n A →
    Agree (do (← zeros d k m).mul d A) (zeros d k n)
  mul_zero : ∀ {m n A} k, k ≠ 0 → Over d m n A →
    Agree (do A.mul d (← zeros d n k)) (zeros d m k)
  zero_add : ∀ {m n A}, Over d m n A → Agree (do (← zeros d m n).add d A) (.ok A)
  add_zero : ∀ {m n A}, Over d m n A → Agree (do A.add d (← zeros d m n)) (.ok A)
  add_assoc : ∀ {m n A B C}, Over d m n A → Over d m n B → Over d m n C →
    Agree (do (← A.add d B).add d C) (do A.add d (← B.add d C))
  add_comm : ∀ {m n A B}, Over d m n A → Over d m n B → Agree (A.add d B) (B.add d A)
  add_idem : ∀ {m n A}, Over d m n A → Agree (A.add d A) (.ok A)
  /-- The powers that are formed begin with the identity and the matrix itself, and any two of them
  multiply to the power with the sum of their exponents. -/
  power_mul_power : ∀ {n M}, Over d n n M → ∀ highest, highest ≠ 0 →
    ∃ P, M.powers d highest true = .ok P ∧
      (∃ I, P.power? 0 = some I ∧ Agree (.ok I) (identity d n)) ∧
      (∃ X, P.power? 1 = some X ∧ Agree (.ok X) (.ok M)) ∧
      ∀ j k, j + k ≤ highest →
        ∃ X Y Z, P.power? j = some X ∧ P.power? k = some Y ∧ P.power? (j + k) = some Z ∧
          Agree (X.mul d Y) (.ok Z)

variable {d : Dioid α}

/-- The matrices over a dioid that is a semiring form an idempotent semiring. -/
theorem matrixSemiring (law : d.IsSemiring) : d.MatrixSemiring := by
  obtain ⟨β, _, ν, -⟩ := law.exists_valuation
  have rows {m n : Nat} {A : Matrix α} (sized : A.Over d m n) : 0 < m := sized.rows ▸ A.rows_pos
  have cols {m n : Nat} {A : Matrix α} (sized : A.Over d m n) : 0 < n := sized.cols ▸ A.cols_pos
  have reads {m n : Nat} {A : Matrix α} (sized : A.Over d m n) :
      ∃ F : Weights m n β, Computes ν (.ok A) F := sized.exists_computes
  constructor
  case mul_over =>
    intro m k n A B overA overB
    obtain ⟨F, readA⟩ := reads overA
    obtain ⟨G, readB⟩ := reads overB
    exact (readA.mul readB).exists_over
  case add_over =>
    intro m n A B overA overB
    obtain ⟨F, readA⟩ := reads overA
    obtain ⟨G, readB⟩ := reads overB
    exact (readA.add readB).exists_over
  case mul_assoc =>
    intro m k l n A B C overA overB overC
    obtain ⟨F, readA⟩ := reads overA
    obtain ⟨G, readB⟩ := reads overB
    obtain ⟨H, readC⟩ := reads overC
    exact ((readA.mul readB).mul readC).agree (readA.mul (readB.mul readC)) (Matrix.mul_assoc F G H)
  case mul_add =>
    intro m k n A B C overA overB overC
    obtain ⟨F, readA⟩ := reads overA
    obtain ⟨G, readB⟩ := reads overB
    obtain ⟨H, readC⟩ := reads overC
    exact (readA.mul (readB.add readC)).agree ((readA.mul readB).add (readA.mul readC))
      (Matrix.mul_add F G H)
  case add_mul =>
    intro m k n A B C overA overB overC
    obtain ⟨F, readA⟩ := reads overA
    obtain ⟨G, readB⟩ := reads overB
    obtain ⟨H, readC⟩ := reads overC
    exact ((readA.add readB).mul readC).agree ((readA.mul readC).add (readB.mul readC))
      (Matrix.add_mul F G H)
  case one_mul =>
    intro m n A sized
    obtain ⟨F, read⟩ := reads sized
    exact ((computes_identity (rows sized)).mul read).agree read (Matrix.one_mul F)
  case mul_one =>
    intro m n A sized
    obtain ⟨F, read⟩ := reads sized
    exact (read.mul (computes_identity (cols sized))).agree read (Matrix.mul_one F)
  case zero_mul =>
    intro m n A k some sized
    obtain ⟨F, read⟩ := reads sized
    have pos : 0 < k := Nat.pos_of_ne_zero some
    exact ((computes_zeros pos (rows sized)).mul read).agree (computes_zeros pos (cols sized))
      (Matrix.zero_mul F)
  case mul_zero =>
    intro m n A k some sized
    obtain ⟨F, read⟩ := reads sized
    have pos : 0 < k := Nat.pos_of_ne_zero some
    exact (read.mul (computes_zeros (cols sized) pos)).agree (computes_zeros (rows sized) pos)
      (Matrix.mul_zero F)
  case zero_add =>
    intro m n A sized
    obtain ⟨F, read⟩ := reads sized
    exact ((computes_zeros (rows sized) (cols sized)).add read).agree read (zero_add F)
  case add_zero =>
    intro m n A sized
    obtain ⟨F, read⟩ := reads sized
    exact (read.add (computes_zeros (rows sized) (cols sized))).agree read (add_zero F)
  case add_assoc =>
    intro m n A B C overA overB overC
    obtain ⟨F, readA⟩ := reads overA
    obtain ⟨G, readB⟩ := reads overB
    obtain ⟨H, readC⟩ := reads overC
    exact ((readA.add readB).add readC).agree (readA.add (readB.add readC)) (add_assoc F G H)
  case add_comm =>
    intro m n A B overA overB
    obtain ⟨F, readA⟩ := reads overA
    obtain ⟨G, readB⟩ := reads overB
    exact (readA.add readB).agree (readB.add readA) (add_comm F G)
  case add_idem =>
    intro m n A sized
    obtain ⟨F, read⟩ := reads sized
    exact (read.add read).agree read F.add_self_eq
  case power_mul_power =>
    intro n M sized highest some
    obtain ⟨F, read⟩ : ∃ F : WeightMatrix n β, M.Reads ν F :=
      exists_reads ν sized.elements sized.rows sized.cols
    obtain ⟨P, computed, power⟩ := exists_powers_computes read some
    obtain ⟨I, storedI, readI⟩ := power 0 (Nat.zero_le _)
    obtain ⟨X, storedX, readX⟩ := power 1 (Nat.pos_of_ne_zero some)
    have identity := readI.agree (computes_identity (rows sized)) (pow_zero F)
    refine ⟨P, computed, ⟨I, storedI, identity⟩,
      ⟨X, storedX, readX.agree ⟨M, rfl, read⟩ (pow_one F)⟩, fun j k below => ?_⟩
    obtain ⟨X, storedX, readX⟩ := power j (by omega)
    obtain ⟨Y, storedY, readY⟩ := power k (by omega)
    obtain ⟨Z, storedZ, readZ⟩ := power (j + k) below
    exact ⟨X, Y, Z, storedX, storedY, storedZ, (readX.mul readY).agree readZ (pow_add F j k).symm⟩

end Dioid

namespace Matrix

/-- One row, which has a single cell for a product with its transpose. -/
def outward : Matrix ExtendedRational :=
  .ofVectors #v[#v[.rational 1, .negInfinity, .rational (-3)]]

theorem matrixSemiring_outward :
    (do (← outward.mul .maxPlus outward.transpose).mul .maxPlus outward) =
      .ok (.ofVectors #v[#v[.rational 3, .negInfinity, .rational (-1)]]) ∧
    Agree (do (← outward.mul .maxPlus outward.transpose).mul .maxPlus outward)
      (do outward.mul .maxPlus (← outward.transpose.mul .maxPlus outward)) := by
  have laws := Dioid.matrixSemiring (Dioid.Chart.lawful .maxPlus).isSemiring
  have row : outward.Over .maxPlus 1 3 := ⟨rfl, rfl, by decide⟩
  have column : outward.transpose.Over .maxPlus 3 1 := ⟨rfl, rfl, by decide⟩
  exact ⟨by decide +kernel, laws.mul_assoc row column row⟩

end Matrix

end TropicalAlgebra
