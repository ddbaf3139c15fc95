import TapeMachine.Fault

/-!
# The pool of RAM cells

The pool keeps account of each cell, whether it is in use. The lowest free cell is handed out, and
none is given back, because a variable lives for the whole program. So the cells in use come before
the free ones in every pool, and their number is the next cell (`allocate_eq_ok_iff`).
-/

namespace TapeMachine

/-- A pool of `size` cells. The list says of the cells from cell zero on whether they are in use;
the cells behind its end are free. -/
structure CellPool where
  size : Nat
  occupied : List Bool
  length_le : occupied.length ≤ size
  /-- The cells in use come before the free ones. -/
  packed : occupied.Pairwise (fun a b => b = true → a = true)
deriving DecidableEq, Repr

namespace CellPool

/-! ## Taking the first free cell -/

/-- The cells, after the first free one has been taken. -/
def occupyFirst : List Bool → List Bool
  | [] => [true]
  | true :: cells => true :: occupyFirst cells
  | false :: cells => true :: cells

theorem length_occupyFirst_le {cells : List Bool} {n : Nat} (h : cells.length ≤ n)
    (hfree : cells.idxOf false < n) : (occupyFirst cells).length ≤ n := by
  induction cells generalizing n with
  | nil => exact hfree
  | cons c cells ih =>
    obtain ⟨m, rfl⟩ : ∃ m, n = m + 1 := ⟨n - 1, by simp at h; omega⟩
    cases c with
    | false => exact h
    | true =>
      have hfree' : cells.idxOf false < m := by simpa [List.idxOf_cons] using hfree
      exact Nat.succ_le_succ (ih (Nat.le_of_succ_le_succ h) hfree')

theorem count_occupyFirst (cells : List Bool) :
    (occupyFirst cells).count true = cells.count true + 1 := by
  induction cells with
  | nil => rfl
  | cons c cells ih => cases c <;> simp [occupyFirst, ih]

theorem packed_occupyFirst {cells : List Bool}
    (h : cells.Pairwise (fun a b => b = true → a = true)) :
    (occupyFirst cells).Pairwise (fun a b => b = true → a = true) := by
  induction cells with
  | nil => exact List.pairwise_singleton _ _
  | cons c cells ih =>
    rw [List.pairwise_cons] at h
    cases c with
    | false => exact List.pairwise_cons.mpr ⟨fun _ _ _ => rfl, h.2⟩
    | true => exact List.pairwise_cons.mpr ⟨fun _ _ _ => rfl, ih h.2⟩

/-- If the cells in use come first, the first free one is as far up as there are cells in use. -/
theorem idxOf_false_eq_count {cells : List Bool}
    (h : cells.Pairwise (fun a b => b = true → a = true)) :
    cells.idxOf false = cells.count true := by
  induction cells with
  | nil => rfl
  | cons c cells ih =>
    rw [List.pairwise_cons] at h
    cases c with
    | true =>
      rw [List.idxOf_cons, ih h.2, List.count_cons_self]
      rfl
    | false =>
      have hfree : true ∉ cells := fun hmem => absurd (h.1 true hmem rfl) (by decide)
      simp [List.count_eq_zero.mpr hfree]

theorem getD_eq_true_iff {cells : List Bool}
    (h : cells.Pairwise (fun a b => b = true → a = true)) (i : Nat) :
    cells.getD i false = true ↔ i < cells.count true := by
  induction cells generalizing i with
  | nil => simp
  | cons c cells ih =>
    rw [List.pairwise_cons] at h
    cases c with
    | true => cases i <;> simp [← ih h.2]
    | false =>
      have hfree : true ∉ cells := fun hmem => absurd (h.1 true hmem rfl) (by decide)
      rw [List.count_cons_of_ne (by decide), List.count_eq_zero.mpr hfree]
      refine iff_of_false (fun hi => ?_) (Nat.not_lt_zero i)
      rw [List.getD_eq_getElem?_getD] at hi
      cases i with
      | zero => cases hi
      | succ i =>
        cases hcell : cells[i]? with
        | none => simp [hcell] at hi
        | some b =>
          simp only [List.getElem?_cons_succ, hcell, Option.getD_some] at hi
          exact hfree (hi ▸ List.mem_of_getElem? hcell)

/-! ## Pools -/

/-- The size of a pool for which no other is given. -/
def defaultSize : Int := 255

/-- The pool of so many cells, all of them free. -/
def vacant (size : Nat) : CellPool := ⟨size, [], Nat.zero_le size, .nil⟩

/-- A pool with all its cells free. -/
def ofSize (size : Int) : Except Misuse CellPool :=
  if size ≤ 0 then .error .poolSize else .ok (vacant size.toNat)

/-- The number of cells in use. -/
def used (p : CellPool) : Nat := p.occupied.count true

/-- The number of free cells. -/
def free (p : CellPool) : Nat := p.size - p.used

/-- The lowest free cell; it exists if it lies below the size. -/
def lowestFree (p : CellPool) : Nat := p.occupied.idxOf false

/-- Takes the lowest free cell. -/
def allocate (p : CellPool) : Except Fault (Nat × CellPool) :=
  if h : p.lowestFree < p.size then
    .ok (p.lowestFree,
      { size := p.size
        occupied := occupyFirst p.occupied
        length_le := length_occupyFirst_le p.length_le h
        packed := packed_occupyFirst p.packed })
  else .error (.poolExhausted p.size)

/-- Takes `n` cells one after the other. The cells taken before the pool ran out stay taken. -/
def allocateMany : Nat → EStateM Fault CellPool (List Nat)
  | 0, p => .ok [] p
  | n + 1, p =>
    match p.allocate with
    | .error f => .error f p
    | .ok (cell, p) =>
      match allocateMany n p with
      | .error f p => .error f p
      | .ok cells p => .ok (cell :: cells) p

/-- Whether the cell exists and is in use. -/
def isOccupied (p : CellPool) (cell : Int) : Bool :=
  decide (0 ≤ cell) && decide (cell < p.size) && p.occupied.getD cell.toNat false

theorem used_le (p : CellPool) : p.used ≤ p.size :=
  Nat.le_trans List.count_le_length p.length_le

theorem lowestFree_eq_used (p : CellPool) : p.lowestFree = p.used := idxOf_false_eq_count p.packed

/-- A cell is handed out exactly if one is free, and it is the lowest free one. -/
theorem allocate_eq_ok_iff {p q : CellPool} {cell : Nat} :
    p.allocate = .ok (cell, q) ↔
      p.used < p.size ∧ cell = p.used ∧ q.size = p.size ∧ q.occupied = occupyFirst p.occupied := by
  obtain ⟨size, occupied, hlength, hpacked⟩ := q
  rw [← p.lowestFree_eq_used]
  by_cases hlt : p.lowestFree < p.size
  · rw [allocate, dif_pos hlt]
    simp only [Except.ok.injEq, Prod.mk.injEq, CellPool.mk.injEq]
    exact ⟨fun ⟨hcell, hs, ho⟩ => ⟨hlt, hcell.symm, hs.symm, ho.symm⟩,
      fun ⟨_, hcell, hs, ho⟩ => ⟨hcell.symm, hs.symm, ho.symm⟩⟩
  · simp [allocate, hlt]

theorem allocate_eq_error_iff {p : CellPool} {f : Fault} :
    p.allocate = .error f ↔ p.used = p.size ∧ f = .poolExhausted p.size := by
  have hle := p.used_le
  rw [← p.lowestFree_eq_used] at hle ⊢
  by_cases hlt : p.lowestFree < p.size
  · simp [allocate, hlt, Nat.ne_of_lt hlt]
  · have heq : p.lowestFree = p.size := Nat.le_antisymm hle (Nat.le_of_not_lt hlt)
    simp [allocate, heq, eq_comm]

theorem used_of_allocate {p q : CellPool} {cell : Nat} (h : p.allocate = .ok (cell, q)) :
    q.used = p.used + 1 := by
  rw [used, (allocate_eq_ok_iff.mp h).2.2.2]
  exact count_occupyFirst p.occupied

/-- The cells in use are those below their number. -/
theorem isOccupied_iff {p : CellPool} {cell : Int} :
    p.isOccupied cell = true ↔ 0 ≤ cell ∧ cell < p.used := by
  have hle := p.used_le
  have hcell := getD_eq_true_iff p.packed cell.toNat
  rw [isOccupied, Bool.and_eq_true, Bool.and_eq_true, decide_eq_true_eq, decide_eq_true_eq, hcell]
  unfold used at hle ⊢
  omega

end CellPool

end TapeMachine
