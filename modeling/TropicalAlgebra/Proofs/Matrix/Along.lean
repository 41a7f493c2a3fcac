import TropicalAlgebra.Proofs.Matrix.Alike

/-!
# Matrices with corresponding rows and columns

Rows or columns of two matrices may stand for the same thing although they are in another order, or
although one matrix has more copies of them. A check of all cells does not see the difference.
-/

namespace TropicalAlgebra

/-- Numbers below `left` and numbers below `right` that stand for the same thing. Each number has a
partner on the other side. -/
structure Correspondence where
  left : Nat
  right : Nat
  Pairs : Nat → Nat → Prop
  bounds : ∀ {i i'}, Pairs i i' → i < left ∧ i' < right
  partner : ∀ {i}, i < left → ∃ i', Pairs i i'
  partner' : ∀ {i'}, i' < right → ∃ i, Pairs i i'

namespace Correspondence

/-- Every number corresponds to itself. -/
def id (n : Nat) : Correspondence where
  left := n
  right := n
  Pairs i i' := i = i' ∧ i < n
  bounds := by
    rintro i _ ⟨rfl, h⟩
    exact ⟨h, h⟩
  partner h := ⟨_, rfl, h⟩
  partner' h := ⟨_, rfl, h⟩

/-- The same pairs, with the sides exchanged. -/
def swap (ρ : Correspondence) : Correspondence where
  left := ρ.right
  right := ρ.left
  Pairs i i' := ρ.Pairs i' i
  bounds pair := (ρ.bounds pair).symm
  partner := ρ.partner'
  partner' := ρ.partner

/-- Positions of the same entry in two lists with the same entries. -/
def ofEntries {β : Type} (xs ys : List β) (same : ∀ b, b ∈ xs ↔ b ∈ ys) : Correspondence where
  left := xs.length
  right := ys.length
  Pairs i i' := ∃ b, xs[i]? = some b ∧ ys[i']? = some b
  bounds := by
    rintro i i' ⟨b, left, right⟩
    exact ⟨(List.getElem?_eq_some_iff.mp left).1, (List.getElem?_eq_some_iff.mp right).1⟩
  partner {i} h := by
    obtain ⟨i', found⟩ := List.mem_iff_getElem?.mp ((same _).mp (List.getElem_mem h))
    exact ⟨i', xs[i], List.getElem?_eq_getElem h, found⟩
  partner' {i'} h := by
    obtain ⟨i, found⟩ := List.mem_iff_getElem?.mp ((same _).mpr (List.getElem_mem h))
    exact ⟨i, ys[i'], found, List.getElem?_eq_getElem h⟩

end Correspondence

variable {α : Type}

/-- The cells in corresponding rows and columns are related. -/
structure Matrix.Along (R : α → α → Prop) (rows cols : Correspondence) (A A' : Matrix α) :
    Prop where
  rows_eq : A.rows = rows.left
  rows_eq' : A'.rows = rows.right
  cols_eq : A.cols = cols.left
  cols_eq' : A'.cols = cols.right
  cell : ∀ i i' j j' (hi : i < A.rows) (hj : j < A.cols) (hi' : i' < A'.rows) (hj' : j' < A'.cols),
    rows.Pairs i i' → cols.Pairs j j' → R (A.cell ⟨i, hi⟩ ⟨j, hj⟩) (A'.cell ⟨i', hi'⟩ ⟨j', hj'⟩)

/-- Matrices that are alike are related along their equal rows and columns. -/
theorem Matrix.Alike.along {R : α → α → Prop} {A A' : Matrix α} (alike : A.Alike R A') :
    A.Along R (.id A.rows) (.id A.cols) A' where
  rows_eq := rfl
  rows_eq' := alike.rows.symm
  cols_eq := rfl
  cols_eq' := alike.cols.symm
  cell i _ j _ hi hj hi' hj' row col := by
    obtain ⟨rfl, -⟩ := row
    obtain ⟨rfl, -⟩ := col
    exact alike.cell i j hi hj hi' hj'

namespace Matrix.Along

variable {R : α → α → Prop} {ρ κ : Correspondence} {A A' : Matrix α}

theorem mono {S : α → α → Prop} (along : A.Along R ρ κ A') (each : ∀ {a a'}, R a a' → S a a') :
    A.Along S ρ κ A' :=
  { along with
    cell := fun i i' j j' hi hj hi' hj' row col =>
      each (along.cell i i' j j' hi hj hi' hj' row col) }

theorem alike {m n : Nat} (along : A.Along R (.id m) (.id n) A') : A.Alike R A' where
  rows := along.rows_eq.trans along.rows_eq'.symm
  cols := along.cols_eq.trans along.cols_eq'.symm
  cell i j hi hj hi' hj' :=
    along.cell i i j j hi hj hi' hj' ⟨rfl, Nat.lt_of_lt_of_eq hi along.rows_eq⟩
      ⟨rfl, Nat.lt_of_lt_of_eq hj along.cols_eq⟩

variable (along : A.Along R ρ κ A')

include along

theorem swap : A'.Along (fun a' a => R a a') ρ.swap κ.swap A where
  rows_eq := along.rows_eq'
  rows_eq' := along.rows_eq
  cols_eq := along.cols_eq'
  cols_eq' := along.cols_eq
  cell i' i j' j hi' hj' hi hj row col := along.cell i i' j j' hi hj hi' hj' row col

/-- Every cell on the left has a related one on the right. -/
theorem exists_cell {i j : Nat} (hi : i < A.rows) (hj : j < A.cols) :
    ∃ i' j' hi' hj', R (A.cell ⟨i, hi⟩ ⟨j, hj⟩) (A'.cell ⟨i', hi'⟩ ⟨j', hj'⟩) := by
  obtain ⟨i', row⟩ := ρ.partner (along.rows_eq ▸ hi)
  obtain ⟨j', col⟩ := κ.partner (along.cols_eq ▸ hj)
  have hi' : i' < A'.rows := along.rows_eq' ▸ (ρ.bounds row).2
  have hj' : j' < A'.cols := along.cols_eq' ▸ (κ.bounds col).2
  exact ⟨i', j', hi', hj', along.cell i i' j j' hi hj hi' hj' row col⟩

/-- Every cell on the right has a related one on the left. -/
theorem exists_cell' {i' j' : Nat} (hi' : i' < A'.rows) (hj' : j' < A'.cols) :
    ∃ i j hi hj, R (A.cell ⟨i, hi⟩ ⟨j, hj⟩) (A'.cell ⟨i', hi'⟩ ⟨j', hj'⟩) :=
  along.swap.exists_cell hi' hj'

end Matrix.Along

/-! ### Cells that are elements -/

section Elements

variable [Scalar α]

/-- Equal elements. -/
def Dioid.EqualElements (d : Dioid α) (a b : α) : Prop := a ∈ d ∧ b ∈ d ∧ a == b

/-- Equal if one of them is an element, and then so is the other. -/
def Dioid.Interchangeable (d : Dioid α) (a b : α) : Prop := (a ∈ d ↔ b ∈ d) ∧ (a ∈ d → a == b)

theorem Dioid.EqualElements.interchangeable {d : Dioid α} {a b : α} (equal : d.EqualElements a b) :
    d.Interchangeable a b :=
  ⟨iff_of_true equal.1 equal.2.1, fun _ => equal.2.2⟩

namespace Matrix

variable {d : Dioid α} {M N : Matrix α} {ρ κ : Correspondence}

omit [Scalar α] in
theorem members_iff {M : Matrix α} :
    (∀ a ∈ M.toList, a ∈ d) ↔
      ∀ i j (hi : i < M.rows) (hj : j < M.cols), M.cell ⟨i, hi⟩ ⟨j, hj⟩ ∈ d := by
  constructor
  · intro members i j hi hj
    exact members _ (mem_toList.mpr ⟨_, _, rfl⟩)
  · intro cells a ha
    obtain ⟨⟨i, hi⟩, ⟨j, hj⟩, rfl⟩ := mem_toList.mp ha
    exact cells i j hi hj

omit [Scalar α] in
theorem row_mem_of_members (members : ∀ a ∈ M.toList, a ∈ d) (i : Fin M.rows) :
    ∀ a ∈ M.row i, a ∈ d := by
  intro a ha
  rw [row_eq_ofFn, List.mem_ofFn] at ha
  obtain ⟨j, rfl⟩ := ha
  exact members _ (mem_toList.mpr ⟨i, j, rfl⟩)

omit [Scalar α] in
theorem column_mem_of_members (members : ∀ a ∈ M.toList, a ∈ d) (j : Fin M.cols) :
    ∀ a ∈ M.column j, a ∈ d := by
  intro a ha
  rw [column_eq_ofFn, List.mem_ofFn] at ha
  obtain ⟨i, rfl⟩ := ha
  exact members _ (mem_toList.mpr ⟨i, j, rfl⟩)

theorem Along.left_mem (along : M.Along d.EqualElements ρ κ N) : ∀ a ∈ M.toList, a ∈ d := by
  refine members_iff.mpr fun i j hi hj => ?_
  obtain ⟨i', j', hi', hj', equal⟩ := along.exists_cell hi hj
  exact equal.1

theorem Along.right_mem (along : M.Along d.EqualElements ρ κ N) : ∀ a ∈ N.toList, a ∈ d := by
  refine members_iff.mpr fun i' j' hi' hj' => ?_
  obtain ⟨i, j, hi, hj, equal⟩ := along.exists_cell' hi' hj'
  exact equal.2.1

/-- Matrices with interchangeable cells are accepted together, and their cells are then equal. -/
theorem Along.validate (along : M.Along d.Interchangeable ρ κ N) :
    Outcome.Alike (fun _ _ => True) (fun _ _ => M.Along d.EqualElements ρ κ N) (M.validate d)
      (N.validate d) := by
  have members : (∀ a ∈ M.toList, a ∈ d) ↔ ∀ a ∈ N.toList, a ∈ d := by
    rw [members_iff, members_iff]
    constructor
    · intro cells i' j' hi' hj'
      obtain ⟨i, j, hi, hj, both, -⟩ := along.exists_cell' hi' hj'
      exact both.mp (cells i j hi hj)
    · intro cells i j hi hj
      obtain ⟨i', j', hi', hj', both, -⟩ := along.exists_cell hi hj
      exact both.mpr (cells i' j' hi' hj')
  have accepted (K : Matrix α) : (∃ u, K.validate d = .ok u) ↔ ∀ a ∈ K.toList, a ∈ d :=
    (exists_const Unit).trans (validate_eq_ok_iff d)
  refine .of_ok ((accepted M).trans (members.trans (accepted N).symm)) fun u _ computed _ => ?_
  have elements := (accepted M).mp ⟨u, computed⟩
  refine { along with cell := fun i i' j j' hi hj hi' hj' row col => ?_ }
  obtain ⟨both, equal⟩ := along.cell i i' j j' hi hj hi' hj' row col
  have member := members_iff.mp elements i j hi hj
  exact ⟨member, both.mp member, equal member⟩

theorem Along.checked (along : M.Along d.Interchangeable ρ κ N) :
    Outcome.Alike (fun _ _ => True) (Matrix.Along d.EqualElements ρ κ) (M.checked d)
      (N.checked d) :=
  along.validate.bind fun along => .ok along

theorem Alike.checked (alike : M.Alike d.Interchangeable N) :
    Outcome.Alike (fun _ _ => True) (Matrix.Alike d.EqualElements) (M.checked d) (N.checked d) :=
  alike.along.checked.mono (fun _ => trivial) fun along => along.alike

end Matrix

end Elements

end TropicalAlgebra
