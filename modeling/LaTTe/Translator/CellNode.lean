import Mathlib.Data.List.Induction
import Mathlib.Data.List.Pairwise
import Mathlib.Logic.Function.Basic
import Mathlib.Tactic.IntervalCases

namespace LaTTe.Translator.CodeMap

universe u

/-! The map from code addresses to data.  A range of addresses is cut at the boundaries of
cells, and each piece is chained into the table at the number of its cell. -/

def cellTableSize : Nat := 8192

def cellSize : BitVec 32 := 256#32

inductive Origin where
  | methodBody
  | typeCheckCode
  deriving DecidableEq, Repr

/-- `data` is `none` for the null pointer. -/
structure CellNode (α : Type u) where
  startAddr : BitVec 32
  endAddr : BitVec 32
  data : Option α
  org : Origin

/-- `cell_table`, with the chains as lists. -/
abbrev CellTable (α : Type u) := Nat → List (CellNode α)

section

variable {α : Type u}

def CellNode.covers (node : CellNode α) (pc : BitVec 32) : Bool :=
  node.startAddr ≤ pc && pc < node.endAddr

/-- `CN_initialize`. -/
def initTable : CellTable α :=
  fun _ => []

def CellTable.chain (table : CellTable α) (aCell : Nat) (node : CellNode α) : CellTable α :=
  Function.update table aCell (node :: table aCell)

def cellOf (addr : BitVec 32) : Nat :=
  ((addr >>> 8) &&& 0x00001fff#32).toNat

def nextStart (startAddr : BitVec 32) : BitVec 32 :=
  (startAddr + cellSize) &&& -cellSize

/-- The loop of `CN_register_data`; it has more rounds than there are cells only when the
addresses wrap around. -/
def registerFrom (endAddr : BitVec 32) (data : Option α) (org : Origin) :
    Nat → CellTable α → Nat → BitVec 32 → Option (CellTable α)
  | 0, _, _, _ => none
  | fuel + 1, table, aCell, startAddr =>
      let nextStartAddr := nextStart startAddr
      if nextStartAddr < endAddr then
        registerFrom endAddr data org fuel
          (table.chain aCell ⟨startAddr, nextStartAddr, data, org⟩)
          ((aCell + 1) % cellTableSize) nextStartAddr
      else
        some (table.chain aCell ⟨startAddr, endAddr, data, org⟩)

structure Registration (α : Type u) where
  startAddr : BitVec 32
  endAddr : BitVec 32
  data : Option α
  org : Origin

def registerData (table : CellTable α) (r : Registration α) : Option (CellTable α) :=
  registerFrom r.endAddr r.data r.org (2 ^ 24) table (cellOf r.startAddr) r.startAddr

/-- `_find_data`. -/
def findNode (table : CellTable α) (pc : BitVec 32) : Option (CellNode α) :=
  (table (cellOf pc)).find? fun node => node.covers pc

def findData (table : CellTable α) (pc : BitVec 32) : Option α :=
  match findNode table pc with
  | none => none
  | some node => node.data

def isFromTypeCheckCode (table : CellTable α) (pc : BitVec 32) : Bool :=
  match findNode table pc with
  | none => false
  | some node => node.org = .typeCheckCode

/-! Addresses and cells as numbers. -/

theorem cellOf_eq (addr : BitVec 32) : cellOf addr = addr.toNat / 256 % cellTableSize := by
  rw [cellOf, BitVec.toNat_and, BitVec.toNat_ushiftRight, Nat.shiftRight_eq_div_pow]
  exact Nat.and_two_pow_sub_one_eq_mod _ 13

theorem and_neg_cellSize (addr : BitVec 32) : addr &&& -cellSize = (addr >>> 8) <<< 8 := by
  apply BitVec.eq_of_getLsbD_eq
  intro i below
  have mask : (-cellSize).getLsbD i = decide (8 ≤ i) := by
    interval_cases i <;> rfl
  rw [BitVec.getLsbD_and, mask, BitVec.getLsbD_shiftLeft, BitVec.getLsbD_ushiftRight]
  by_cases low : i < 8
  · simp [low]
  · have high : 8 + (i - 8) = i := by omega
    simp [low, below, high]
    omega

theorem nextStart_toNat {startAddr : BitVec 32} (below : startAddr.toNat < 2 ^ 32 - 256) :
    (nextStart startAddr).toNat = (startAddr.toNat / 256 + 1) * 256 := by
  have sum : (startAddr + cellSize).toNat = startAddr.toNat + 256 := by
    have size : cellSize.toNat = 256 := rfl
    rw [BitVec.toNat_add, size]
    exact Nat.mod_eq_of_lt (by omega)
  rw [nextStart, and_neg_cellSize, BitVec.toNat_shiftLeft, BitVec.toNat_ushiftRight, sum,
    Nat.shiftRight_eq_div_pow, Nat.shiftLeft_eq]
  omega

/-! Registering a range, and finding addresses in it. -/

namespace Registration

def contains (r : Registration α) (pc : BitVec 32) : Bool :=
  r.startAddr ≤ pc && pc < r.endAddr

structure Proper (r : Registration α) : Prop where
  nonempty : r.startAddr < r.endAddr
  below : r.endAddr ≤ 0xffffff00#32

def Apart (r other : Registration α) : Prop :=
  ∀ pc, ¬ (r.contains pc = true ∧ other.contains pc = true)

structure Piece (r : Registration α) (node : CellNode α) : Prop where
  covers : ∀ pc, node.covers pc = true → r.contains pc = true
  data : node.data = r.data
  org : node.org = r.org

theorem piece_of_between (r : Registration α) {low high : BitVec 32} (after : r.startAddr ≤ low)
    (before : high ≤ r.endAddr) : r.Piece ⟨low, high, r.data, r.org⟩ := by
  refine ⟨?_, rfl, rfl⟩
  intro pc covers
  simp only [CellNode.covers, Bool.and_eq_true, decide_eq_true_eq] at covers
  simp only [contains, Bool.and_eq_true, decide_eq_true_eq]
  exact ⟨BitVec.le_trans after covers.1, Nat.lt_of_lt_of_le covers.2 before⟩

end Registration

structure Registered (ranges : List (Registration α)) (table : CellTable α) : Prop where
  pieces : ∀ aCell, ∀ node ∈ table aCell, ∃ r ∈ ranges, r.Piece node
  covered : ∀ r ∈ ranges, ∀ pc, r.contains pc = true →
    ∃ node ∈ table (cellOf pc), node.covers pc = true

structure Extends (r : Registration α) (startAddr : BitVec 32) (table next : CellTable α) :
    Prop where
  old : ∀ aCell, ∀ node ∈ table aCell, node ∈ next aCell
  new : ∀ aCell, ∀ node ∈ next aCell, node ∈ table aCell ∨ r.Piece node
  covered : ∀ pc, startAddr ≤ pc → pc < r.endAddr →
    ∃ node ∈ next (cellOf pc), node.covers pc = true

theorem mem_chain {table : CellTable α} {aCell other : Nat} {node added : CellNode α} :
    node ∈ table.chain aCell added other ↔
      (other = aCell ∧ node = added) ∨ node ∈ table other := by
  unfold CellTable.chain
  by_cases same : other = aCell
  · subst same
    simp
  · simp [same]

theorem cellOf_same {startAddr pc : BitVec 32} (below : startAddr.toNat < 2 ^ 32 - 256)
    (low : startAddr ≤ pc) (high : pc < nextStart startAddr) : cellOf pc = cellOf startAddr := by
  rw [BitVec.le_def] at low
  rw [BitVec.lt_def, nextStart_toNat below] at high
  rw [cellOf_eq, cellOf_eq]
  congr 1
  omega

theorem cellOf_next {startAddr : BitVec 32} (below : startAddr.toNat < 2 ^ 32 - 256) :
    cellOf (nextStart startAddr) = (cellOf startAddr + 1) % cellTableSize := by
  rw [cellOf_eq, cellOf_eq, nextStart_toNat below, Nat.mul_div_cancel _ (by decide),
    Nat.mod_add_mod]

theorem registerFrom_spec (r : Registration α) (bound : r.endAddr ≤ 0xffffff00#32) (fuel : Nat)
    (table : CellTable α) {startAddr : BitVec 32} (inside : r.startAddr ≤ startAddr)
    (nonempty : startAddr < r.endAddr)
    (enough : r.endAddr.toNat ≤ (startAddr.toNat / 256 + fuel) * 256) :
    ∃ next, registerFrom r.endAddr r.data r.org fuel table (cellOf startAddr) startAddr =
      some next ∧ Extends r startAddr table next := by
  have limit : r.endAddr.toNat ≤ 2 ^ 32 - 256 := bound
  induction fuel generalizing table startAddr with
  | zero =>
      rw [BitVec.lt_def] at nonempty
      omega
  | succ fuel ih =>
      have nonempty' := BitVec.lt_def.mp nonempty
      have inside' := BitVec.le_def.mp inside
      have below : startAddr.toNat < 2 ^ 32 - 256 := by omega
      have number := nextStart_toNat below
      rw [registerFrom]
      split
      · rename_i further
        have further' := BitVec.lt_def.mp further
        have inside'' : r.startAddr ≤ nextStart startAddr := by
          rw [BitVec.le_def, number]
          omega
        obtain ⟨next, run, extends'⟩ := ih (table.chain (cellOf startAddr)
          ⟨startAddr, nextStart startAddr, r.data, r.org⟩) inside'' further (by
            rw [number, Nat.mul_div_cancel _ (by decide), Nat.add_assoc, Nat.add_comm 1]
            exact enough)
        rw [← cellOf_next below]
        refine ⟨next, run, ?_, ?_, ?_⟩
        · intro aCell node member
          exact extends'.old aCell node (mem_chain.mpr (.inr member))
        · intro aCell node member
          rcases extends'.new aCell node member with before | piece
          · rcases mem_chain.mp before with ⟨_, rfl⟩ | old
            · exact .inr (r.piece_of_between inside (BitVec.le_of_lt further))
            · exact .inl old
          · exact .inr piece
        · intro pc low high
          rcases Nat.lt_or_ge pc.toNat (nextStart startAddr).toNat with here | later
          · have here' : pc < nextStart startAddr := BitVec.lt_def.mpr here
            refine ⟨_, extends'.old _ _ (mem_chain.mpr (.inl
              ⟨cellOf_same below low here', rfl⟩)), ?_⟩
            simp [CellNode.covers, low, here']
          · exact extends'.covered pc (BitVec.le_def.mpr later) high
      · rename_i last
        have last' : r.endAddr.toNat ≤ (nextStart startAddr).toNat :=
          Nat.le_of_not_lt fun further => last (BitVec.lt_def.mpr further)
        refine ⟨_, rfl, ?_, ?_, ?_⟩
        · intro aCell node member
          exact mem_chain.mpr (.inr member)
        · intro aCell node member
          rcases mem_chain.mp member with ⟨_, rfl⟩ | old
          · exact .inr (r.piece_of_between inside (BitVec.le_refl r.endAddr))
          · exact .inl old
        · intro pc low high
          have high' := BitVec.lt_def.mp high
          have here : pc < nextStart startAddr := BitVec.lt_def.mpr (by omega)
          refine ⟨_, mem_chain.mpr (.inl ⟨cellOf_same below low here, rfl⟩), ?_⟩
          simp [CellNode.covers, low, high]

theorem Registered.add {ranges : List (Registration α)} {table : CellTable α}
    (registered : Registered ranges table) {r : Registration α} (proper : r.Proper) :
    ∃ next, registerData table r = some next ∧ Registered (ranges ++ [r]) next := by
  have limit : r.endAddr.toNat ≤ 2 ^ 32 - 256 := proper.below
  obtain ⟨next, run, extends'⟩ := registerFrom_spec r proper.below (2 ^ 24) table
    (BitVec.le_refl r.startAddr) proper.nonempty (by omega)
  refine ⟨next, run, ?_, ?_⟩
  · intro aCell node member
    rcases extends'.new aCell node member with old | piece
    · obtain ⟨other, inRanges, piece⟩ := registered.pieces aCell node old
      exact ⟨other, List.mem_append_left _ inRanges, piece⟩
    · exact ⟨r, by simp, piece⟩
  · intro other inRanges pc contains
    rcases List.mem_append.mp inRanges with before | now
    · obtain ⟨node, member, covers⟩ := registered.covered other before pc contains
      exact ⟨node, extends'.old _ node member, covers⟩
    · rw [List.mem_singleton.mp now] at contains
      simp only [Registration.contains, Bool.and_eq_true, decide_eq_true_eq] at contains
      exact extends'.covered pc contains.1 contains.2

def registerAll (ranges : List (Registration α)) : Option (CellTable α) :=
  ranges.foldlM registerData initTable

theorem registerAll_spec {ranges : List (Registration α)} (proper : ∀ r ∈ ranges, r.Proper) :
    ∃ table, registerAll ranges = some table ∧ Registered ranges table := by
  induction ranges using List.reverseRecOn with
  | nil => exact ⟨initTable, rfl, by simp [initTable], by simp⟩
  | append_singleton ranges r ih =>
      obtain ⟨table, run, registered⟩ := ih fun other member => proper other (by simp [member])
      obtain ⟨next, step, registered'⟩ := registered.add (proper r (by simp))
      refine ⟨next, ?_, registered'⟩
      rw [registerAll, List.foldlM_append, ← registerAll, run]
      simp [step]

theorem findNode_some {table : CellTable α} {pc : BitVec 32} {node : CellNode α}
    (found : findNode table pc = some node) :
    node ∈ table (cellOf pc) ∧ node.covers pc = true := by
  rw [findNode] at found
  have covers := List.find?_some found
  exact ⟨List.mem_of_find?_eq_some found, covers⟩

theorem Registered.find {ranges : List (Registration α)} {table : CellTable α}
    (registered : Registered ranges table) (apart : ranges.Pairwise Registration.Apart)
    {r : Registration α} (member : r ∈ ranges) {pc : BitVec 32} (contains : r.contains pc = true) :
    ∃ node, findNode table pc = some node ∧ r.Piece node := by
  obtain ⟨node, inChain, covers⟩ := registered.covered r member pc contains
  cases found : findNode table pc with
  | none => exact absurd covers (List.find?_eq_none.mp found node inChain)
  | some first =>
      obtain ⟨inChain', covers'⟩ := findNode_some found
      obtain ⟨other, inRanges, piece⟩ := registered.pieces _ first inChain'
      have contains' := piece.covers pc covers'
      refine ⟨first, rfl, ?_⟩
      by_contra different
      have distinct : r ≠ other := by
        rintro rfl
        exact different piece
      have symmetric : Std.Symm (Registration.Apart (α := α)) :=
        ⟨fun _ _ apart pc both => apart pc both.symm⟩
      exact apart.forall member inRanges distinct pc ⟨contains, contains'⟩

theorem Registered.find_none {ranges : List (Registration α)} {table : CellTable α}
    (registered : Registered ranges table) {pc : BitVec 32}
    (outside : ∀ r ∈ ranges, r.contains pc = false) : findNode table pc = none := by
  rw [findNode, List.find?_eq_none]
  intro node inChain covers
  obtain ⟨r, member, piece⟩ := registered.pieces _ node inChain
  exact absurd (piece.covers pc covers) (by simp [outside r member])

theorem code_map_finds_data (ranges : List (Registration α)) (proper : ∀ r ∈ ranges, r.Proper)
    (apart : ranges.Pairwise Registration.Apart) :
    ∃ table, registerAll ranges = some table ∧ ∀ pc,
      (∀ r ∈ ranges, r.contains pc = true → findData table pc = r.data) ∧
      ((∀ r ∈ ranges, r.contains pc = false) → findData table pc = none) := by
  obtain ⟨table, run, registered⟩ := registerAll_spec proper
  refine ⟨table, run, fun pc => ⟨?_, ?_⟩⟩
  · intro r member contains
    obtain ⟨node, found, piece⟩ := registered.find apart member contains
    rw [findData, found, ← piece.data]
  · intro outside
    rw [findData, registered.find_none outside]

theorem isFromTypeCheckCode_iff (ranges : List (Registration α))
    (proper : ∀ r ∈ ranges, r.Proper) (apart : ranges.Pairwise Registration.Apart) :
    ∃ table, registerAll ranges = some table ∧ ∀ pc,
      isFromTypeCheckCode table pc = true ↔
        ∃ r ∈ ranges, r.contains pc = true ∧ r.org = .typeCheckCode := by
  obtain ⟨table, run, registered⟩ := registerAll_spec proper
  refine ⟨table, run, fun pc => ⟨?_, ?_⟩⟩
  · intro answered
    cases found : findNode table pc with
    | none =>
        rw [isFromTypeCheckCode, found] at answered
        contradiction
    | some node =>
        obtain ⟨inChain, covers⟩ := findNode_some found
        obtain ⟨r, member, piece⟩ := registered.pieces _ node inChain
        rw [isFromTypeCheckCode, found, decide_eq_true_eq, piece.org] at answered
        exact ⟨r, member, piece.covers pc covers, answered⟩
  · rintro ⟨r, member, contains, org⟩
    obtain ⟨node, found, piece⟩ := registered.find apart member contains
    rw [isFromTypeCheckCode, found, decide_eq_true_eq, piece.org, org]

/-- A range that crosses the boundary of a cell, and one behind it whose cell has the same
number. -/
theorem code_map_finds_data_wrapped :
    ∃ table, registerAll [⟨0x1000f0#32, 0x100110#32, some 1, .methodBody⟩,
        ⟨0x300100#32, 0x300200#32, some 2, .typeCheckCode⟩] = some table ∧ ∀ pc,
      (∀ r ∈ [(⟨0x1000f0#32, 0x100110#32, some 1, .methodBody⟩ : Registration Nat),
        ⟨0x300100#32, 0x300200#32, some 2, .typeCheckCode⟩],
        r.contains pc = true → findData table pc = r.data) ∧
      ((∀ r ∈ [(⟨0x1000f0#32, 0x100110#32, some 1, .methodBody⟩ : Registration Nat),
        ⟨0x300100#32, 0x300200#32, some 2, .typeCheckCode⟩],
        r.contains pc = false) → findData table pc = none) := by
  apply code_map_finds_data
  · intro r member
    simp only [List.mem_cons, List.not_mem_nil, or_false] at member
    rcases member with rfl | rfl
    · exact ⟨by decide, by decide⟩
    · exact ⟨by decide, by decide⟩
  · rw [List.pairwise_pair]
    intro pc both
    simp only [Registration.contains, Bool.and_eq_true, decide_eq_true_eq, BitVec.le_def,
      BitVec.lt_def] at both
    have first := both.1.2
    have second := both.2.1
    simp at first second
    omega

end

end LaTTe.Translator.CodeMap
