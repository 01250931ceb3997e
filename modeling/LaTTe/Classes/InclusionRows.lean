import LaTTe.Classes.Inclusion

namespace LaTTe.Classes

open LaTTe.Data

/-! Where the rows of the inclusion test lie, and which of them an operation changes. -/

namespace InclusionTest

variable {Class : Type} {test after later : InclusionTest Class}
  {info : Class → ClassInfo Class} {known : List Class} {c d e f : Class}

structure SameColumns (test after : InclusionTest Class) : Prop where
  columnIdx : after.columnIdx = test.columnIdx
  bitvecSize : after.bitvecSize = test.bitvecSize
  normalHead : after.normalHead = test.normalHead
  arrayHead : after.arrayHead = test.arrayHead
  encoding : after.encoding = test.encoding
  pos : ∀ e, (after.typeRep e).pos = (test.typeRep e).pos

theorem SameColumns.refl (test : InclusionTest Class) : SameColumns test test :=
  ⟨rfl, rfl, rfl, rfl, rfl, fun _ => rfl⟩

theorem SameColumns.trans (first : SameColumns test after) (second : SameColumns after later) :
    SameColumns test later where
  columnIdx := second.columnIdx.trans first.columnIdx
  bitvecSize := second.bitvecSize.trans first.bitvecSize
  normalHead := second.normalHead.trans first.normalHead
  arrayHead := second.arrayHead.trans first.arrayHead
  encoding := second.encoding.trans first.encoding
  pos := fun e => (second.pos e).trans (first.pos e)

structure Placed (test : InclusionTest Class) (info : Class → ClassInfo Class)
    (known : List Class) : Prop where
  column : ∀ c ∈ known, (test.typeRep c).pos < test.columnIdx
  columns : ∀ c ∈ known, ∀ d ∈ known, (test.typeRep c).pos = (test.typeRep d).pos → c = d
  row : ∀ c ∈ known, (test.typeRep c).row < test.unused
  rows : ∀ c ∈ known, ∀ d ∈ known, (test.typeRep c).row = (test.typeRep d).row → c = d
  table : ∀ c ∈ known, (info c).hasTable = true → test.tableRow c = (test.typeRep c).row

structure Laid (test : InclusionTest Class) (info : Class → ClassInfo Class)
    (known : List Class) : Prop extends Placed test info known where
  fits : test.columnIdx ≤ 32 * test.bitvecSize
  long : ∀ c ∈ known, (test.row c).length = test.bitvecSize
  clear : ∀ c ∈ known, ∀ i, test.columnIdx ≤ i → (test.row c).test i = false

/-! Writing a row. -/

theorem setRow_sameColumns (test : InclusionTest Class) (c : Class) (row : BitRow) :
    SameColumns test (test.setRow c row) :=
  ⟨rfl, rfl, rfl, rfl, rfl, fun _ => rfl⟩

theorem Placed.setRow (placed : Placed test info known) (row : BitRow) :
    Placed (test.setRow c row) info known :=
  ⟨placed.column, placed.columns, placed.row, placed.rows, placed.table⟩

@[simp] theorem setRow_row_self (test : InclusionTest Class) (c : Class) (row : BitRow) :
    (test.setRow c row).row c = row :=
  Function.update_self _ _ _

theorem Placed.setRow_row (placed : Placed test info known) (inKnown : c ∈ known)
    (member : e ∈ known) (different : e ≠ c) (row : BitRow) :
    (test.setRow c row).row e = test.row e :=
  Function.update_of_ne (fun same => different (placed.rows e member c inKnown same)) _ _

theorem Laid.setRow (laid : Laid test info known) (inKnown : c ∈ known) {row : BitRow}
    (long : row.length = test.bitvecSize)
    (clear : ∀ i, test.columnIdx ≤ i → row.test i = false) :
    Laid (test.setRow c row) info known where
  toPlaced := laid.toPlaced.setRow row
  fits := laid.fits
  long := by
    intro e member
    by_cases same : e = c
    · subst same
      rw [setRow_row_self]
      exact long
    · rw [laid.setRow_row inKnown member same]
      exact laid.long e member
  clear := by
    intro e member i beyond
    by_cases same : e = c
    · subst same
      rw [setRow_row_self]
      exact clear i beyond
    · rw [laid.setRow_row inKnown member same]
      exact laid.clear e member i beyond

/-! Setting a bit. -/

theorem setBit_sameColumns (test : InclusionTest Class) (c d : Class) :
    SameColumns test (test.setBit c d) :=
  setRow_sameColumns test c _

theorem Laid.column_inside (laid : Laid test info known) (member : d ∈ known) (inKnown : c ∈ known) :
    (test.typeRep d).pos < 32 * (test.row c).length := by
  have column := laid.column d member
  have fits := laid.fits
  rw [laid.long c inKnown]
  omega

theorem Laid.setBit (laid : Laid test info known) (inKnown : c ∈ known) (member : d ∈ known) :
    Laid (test.setBit c d) info known := by
  apply laid.setRow inKnown
  · rw [BitRow.length_set, laid.long c inKnown]
  · intro i beyond
    have column := laid.column d member
    rw [BitRow.test_set (laid.column_inside member inKnown), laid.clear c inKnown i beyond,
      Bool.or_false, decide_eq_false_iff_not]
    omega

theorem Laid.bit_setBit (laid : Laid test info known) (inKnown : c ∈ known) (member : d ∈ known)
    (inKnown' : e ∈ known) (member' : f ∈ known) :
    (test.setBit c d).bit e f = true ↔ test.bit e f = true ∨ e = c ∧ f = d := by
  by_cases same : e = c
  · subst same
    rw [bit, InclusionTest.setBit, setRow_row_self]
    change BitRow.test _ (test.typeRep f).pos = true ↔ _
    rw [BitRow.test_set (laid.column_inside member inKnown), Bool.or_eq_true, decide_eq_true_eq,
      or_comm, bit]
    apply or_congr_right
    constructor
    · exact fun pos => ⟨rfl, laid.columns f member' d member pos.symm⟩
    · rintro ⟨_, rfl⟩
      rfl
  · rw [or_iff_left (fun both => same both.1), bit, InclusionTest.setBit,
      laid.setRow_row inKnown inKnown' same]
    rfl

/-! New rows. -/

variable [DecidableEq Class]

theorem allocateRow_sameColumns (test : InclusionTest Class) (info : Class → ClassInfo Class)
    (c : Class) (contents : BitRow) : SameColumns test (test.allocateRow info c contents) := by
  refine ⟨rfl, rfl, rfl, rfl, rfl, fun e => ?_⟩
  by_cases same : e = c
  · subst same
    simp [allocateRow]
  · simp [allocateRow, Function.update_of_ne same]

theorem allocateRow_row_self (test : InclusionTest Class) (info : Class → ClassInfo Class)
    (c : Class) (contents : BitRow) : (test.allocateRow info c contents).row c = contents := by
  simp [allocateRow, row]

theorem allocateRow_row (contents : BitRow) (different : e ≠ c)
    (old : (test.typeRep e).row < test.unused) :
    (test.allocateRow info c contents).row e = test.row e := by
  simp [allocateRow, row, Function.update_of_ne different, Nat.ne_of_lt old]

/-- A class gets a new row. -/
theorem Placed.allocateRow (contents : BitRow)
    (column : ∀ e ∈ known, (test.typeRep e).pos < test.columnIdx)
    (columns : ∀ e ∈ known, ∀ f ∈ known, (test.typeRep e).pos = (test.typeRep f).pos → e = f)
    (row : ∀ e ∈ known, e ≠ c → (test.typeRep e).row < test.unused)
    (rows : ∀ e ∈ known, e ≠ c → ∀ f ∈ known, f ≠ c →
      (test.typeRep e).row = (test.typeRep f).row → e = f)
    (table : ∀ e ∈ known, e ≠ c → (info e).hasTable = true →
      test.tableRow e = (test.typeRep e).row) :
    Placed (test.allocateRow info c contents) info known := by
  have same := allocateRow_sameColumns test info c contents
  have self : ((test.allocateRow info c contents).typeRep c).row = test.unused := by
    simp [InclusionTest.allocateRow]
  have other (e : Class) (different : e ≠ c) :
      ((test.allocateRow info c contents).typeRep e).row = (test.typeRep e).row := by
    simp [InclusionTest.allocateRow, Function.update_of_ne different]
  have more : (test.allocateRow info c contents).unused = test.unused + 1 := rfl
  refine ⟨?_, ?_, ?_, ?_, ?_⟩
  · intro e member
    rw [same.pos, same.columnIdx]
    exact column e member
  · intro e member f member'
    rw [same.pos, same.pos]
    exact columns e member f member'
  · intro e member
    rw [more]
    by_cases equal : e = c
    · rw [equal, self]
      exact Nat.lt_succ_self _
    · rw [other e equal]
      exact Nat.lt_succ_of_lt (row e member equal)
  · intro e member f member' equal
    by_cases first : e = c
    · by_cases second : f = c
      · rw [first, second]
      · rw [first, self, other f second] at equal
        exact absurd equal (Nat.ne_of_gt (row f member' second))
    · by_cases second : f = c
      · rw [second, self, other e first] at equal
        exact absurd equal (Nat.ne_of_lt (row e member first))
      · rw [other e first, other f second] at equal
        exact rows e member first f member' second equal
  · intro e member hasTable
    by_cases equal : e = c
    · subst equal
      simp [InclusionTest.allocateRow, hasTable]
    · rw [other e equal, ← table e member equal hasTable]
      dsimp only [InclusionTest.allocateRow]
      split
      · exact Function.update_of_ne equal _ _
      · rfl

/-! Longer rows. -/

theorem expandInClassList_spec (prevSize : Nat) {list : List Class} (distinct : list.Nodup)
    (members : ∀ c ∈ list, c ∈ known) (placed : Placed test info known) :
    Placed (expandInClassList info prevSize test list) info known ∧
      SameColumns test (expandInClassList info prevSize test list) ∧
      ∀ e ∈ known, (expandInClassList info prevSize test list).row e =
        if e ∈ list then
          (test.row e).take prevSize ++ List.replicate (test.bitvecSize - prevSize) 0
        else test.row e := by
  induction list generalizing test with
  | nil => exact ⟨placed, .refl _, by simp [expandInClassList]⟩
  | cons c rest ih =>
      obtain ⟨new, distinct⟩ := List.nodup_cons.mp distinct
      have step : Placed (test.allocateRow info c ((test.row c).take prevSize ++
          List.replicate (test.bitvecSize - prevSize) 0)) info known :=
        .allocateRow _ placed.column placed.columns (fun e member _ => placed.row e member)
          (fun e member _ f member' _ => placed.rows e member f member')
          fun e member _ => placed.table e member
      obtain ⟨placed', same, rows⟩ :=
        ih distinct (fun e member => members e (List.mem_cons_of_mem c member)) step
      refine ⟨placed', (allocateRow_sameColumns test info c _).trans same, fun e member => ?_⟩
      refine (rows e member).trans ?_
      by_cases first : e = c
      · subst first
        rw [if_neg new, if_pos List.mem_cons_self, allocateRow_row_self]
      · rw [allocateRow_row _ first (placed.row e member)]
        simp only [List.mem_cons, first, false_or]
        rfl

/-- A wider matrix has the same bits. -/
theorem Laid.expandBinaryMatrix (laid : Laid test info known)
    (normal : test.normalHead.Nodup) (arrays : test.arrayHead.Nodup)
    (normal_known : ∀ c ∈ test.normalHead, c ∈ known)
    (arrays_known : ∀ c ∈ test.arrayHead, c ∈ known)
    (listed : ∀ c ∈ known, c ∈ test.normalHead ∨ c ∈ test.arrayHead)
    (apart : ∀ c ∈ test.normalHead, c ∉ test.arrayHead) :
    Laid (test.expandBinaryMatrix info) info known ∧
      SameColumns { test with bitvecSize := test.bitvecSize + expandBitvecSize }
        (test.expandBinaryMatrix info) ∧
      ∀ c ∈ known, ∀ i, ((test.expandBinaryMatrix info).row c).test i = (test.row c).test i := by
  have wider : Placed { test with bitvecSize := test.bitvecSize + expandBitvecSize } info known :=
    ⟨laid.column, laid.columns, laid.row, laid.rows, laid.table⟩
  obtain ⟨placed, same, rows⟩ := expandInClassList_spec test.bitvecSize normal normal_known wider
  have size : expandBitvecSize = test.bitvecSize + expandBitvecSize - test.bitvecSize := by omega
  rw [← same.arrayHead] at arrays arrays_known
  obtain ⟨placed', same', rows'⟩ := expandInClassList_spec test.bitvecSize arrays arrays_known placed
  have row_eq (c : Class) (member : c ∈ known) : (test.expandBinaryMatrix info).row c =
      test.row c ++ List.replicate expandBitvecSize 0 := by
    have old := laid.long c member
    refine (rows' c member).trans ?_
    rw [rows c member, same.arrayHead, same.bitvecSize]
    change (if c ∈ test.arrayHead then _ else if c ∈ test.normalHead then
      (test.row c).take test.bitvecSize ++ List.replicate
        (test.bitvecSize + expandBitvecSize - test.bitvecSize) 0 else _) = _
    rcases listed c member with inNormal | inArrays
    · rw [if_neg (apart c inNormal), if_pos inNormal, ← old, List.take_length, old, ← size]
    · have notNormal : c ∉ test.normalHead := fun inNormal => apart c inNormal inArrays
      rw [if_pos inArrays, if_neg notNormal]
      change (test.row c).take test.bitvecSize ++ List.replicate
        (test.bitvecSize + expandBitvecSize - test.bitvecSize) 0 = _
      rw [← old, List.take_length, old, ← size]
  have both := same.trans same'
  refine ⟨⟨placed', ?_, ?_, ?_⟩, both, ?_⟩
  · change (expandInClassList _ _ _ _).columnIdx ≤ 32 * (expandInClassList _ _ _ _).bitvecSize
    rw [both.columnIdx, both.bitvecSize]
    have fits := laid.fits
    dsimp only
    omega
  · intro c member
    rw [row_eq c member, List.length_append, laid.long c member, List.length_replicate]
    exact both.bitvecSize.symm
  · intro c member i beyond
    rw [row_eq c member, BitRow.test_append_zeros]
    apply laid.clear c member
    exact Nat.le_trans (Nat.le_of_eq both.columnIdx.symm) beyond
  · intro c member i
    rw [row_eq c member, BitRow.test_append_zeros]

end InclusionTest

end LaTTe.Classes
