import LaTTe.Switches.Arithmetic

namespace LaTTe.Switches

open LaTTe.Sparc (Word Instr State Environment runLine Op Operand Cond Icc Memory)
open LaTTe.Sequences (Reg g0 hi lo)

variable {F : Type}

/-! Jumps through tables. -/

section Range

variable {low high key : Word}

theorem out_of_range_iff (le : low.toInt ≤ high.toInt) :
    high - low < key - low ↔ ¬ (low.toInt ≤ key.toInt ∧ key.toInt ≤ high.toInt) := by
  have := low.isLt
  have := high.isLt
  have := key.isLt
  rw [BitVec.lt_def, BitVec.toNat_sub, BitVec.toNat_sub]
  simp only [BitVec.toInt_eq_toNat_cond] at *
  split_ifs at * <;> omega

theorem toNat_distance (le : low.toInt ≤ key.toInt) :
    (key - low).toNat = (key.toInt - low.toInt).toNat := by
  have := low.isLt
  have := key.isLt
  rw [BitVec.toNat_sub]
  simp only [BitVec.toInt_eq_toNat_cond] at *
  split_ifs at * <;> omega

end Range

/-! Destinations are numbered in the order in which they turn up. -/

def addDest (dests : List Int) (offset : Int) : List Int × Nat :=
  let j := dests.idxOf offset
  (if j = dests.length then dests ++ [offset] else dests, j)

theorem prefix_addDest (dests : List Int) (offset : Int) :
    dests <+: (addDest dests offset).1 := by
  simp only [addDest]
  split
  · exact List.prefix_append ..
  · exact List.prefix_refl _

theorem getElem?_addDest (dests : List Int) (offset : Int) :
    (addDest dests offset).1[(addDest dests offset).2]? = some offset := by
  have split : (addDest dests offset).2 = dests.idxOf offset := rfl
  rw [split]
  by_cases new : dests.idxOf offset = dests.length
  · rw [addDest, if_pos new, new, List.getElem?_concat_length]
  · have below := Nat.lt_of_le_of_ne List.idxOf_le_length new
    rw [addDest, if_neg new, List.getElem?_eq_getElem below, List.getElem_idxOf]

def collect (dests : List Int) : List Int → List Int × List Nat
  | [] => (dests, [])
  | offset :: offsets =>
      let rest := collect (addDest dests offset).1 offsets
      (rest.1, (addDest dests offset).2 :: rest.2)

theorem prefix_collect (dests offsets : List Int) : dests <+: (collect dests offsets).1 := by
  induction offsets generalizing dests with
  | nil => exact List.prefix_refl _
  | cons offset offsets ih => exact (prefix_addDest dests offset).trans (ih _)

theorem prefix_getElem? {α : Type} {items more : List α} (grown : items <+: more) {i : Nat}
    {item : α} (found : items[i]? = some item) : more[i]? = some item := by
  obtain ⟨rest, rfl⟩ := grown
  rw [List.getElem?_append_left (List.getElem?_eq_some_iff.mp found).1, found]

theorem getElem?_collect (dests : List Int) {offsets : List Int} {i : Nat} {offset : Int}
    (found : offsets[i]? = some offset) :
    ∃ j, (collect dests offsets).2[i]? = some j ∧ (collect dests offsets).1[j]? = some offset := by
  induction offsets generalizing dests i with
  | nil => contradiction
  | cons first offsets ih =>
      cases i with
      | zero =>
          cases found
          exact ⟨_, rfl, prefix_getElem? (prefix_collect _ offsets) (getElem?_addDest dests _)⟩
      | succ i => exact ih _ found

theorem collect_of_nodup {dests offsets : List Int} (distinct : (dests ++ offsets).Nodup) :
    (collect dests offsets).1 = dests ++ offsets := by
  induction offsets generalizing dests with
  | nil => exact (List.append_nil dests).symm
  | cons offset offsets ih =>
      have split : dests ++ offset :: offsets = dests ++ [offset] ++ offsets := by simp
      have new : offset ∉ dests := fun mem =>
        (List.disjoint_of_nodup_append distinct) mem List.mem_cons_self
      have added : (addDest dests offset).1 = dests ++ [offset] := by
        simp [addDest, List.idxOf_eq_length_iff.mpr new]
      rw [collect, added, ih (split ▸ distinct), split]

/-! The data segment. -/

def getSucc (graph : Graph F) (node index : Nat) : Option Nat :=
  graph[node]?.bind (·.successors[index]?)

/-- The words that `CodeGen_initialize_data_segment` puts in a jump table. -/
def tableWords (graph : Graph F) (layout : Layout graph.length) (jumpInstr : Nat)
    (entries : List Nat) : List Word :=
  entries.map fun index => ((getSucc graph jumpInstr index).map layout.address).getD 0

def Holds (mem : Memory) (address : Word) (words : List Word) : Prop :=
  ∀ i word, words[i]? = some word → mem.load (address + BitVec.ofNat 32 i <<< 2) .w = word

def Initialized (graph : Graph F) (layout : Layout graph.length) (base : Nat)
    (address : Nat → Word) (tables : List JumpTable) (mem : Memory) : Prop :=
  ∀ index table, tables[index]? = some table →
    Holds mem (address index) (tableWords graph layout (base + table.jumpInstr) table.entries)

/-! The jump. -/

namespace Emission

def rangeBranch (e : Emission F) (opsTop : Int) (low high : Word) : Emission F :=
  e.appendAll ((rangeTest opsTop low high).map .plain ++ [.plain (.branch .gu)])

def tableJump (e : Emission F) (jumpTable : Word) : Emission F :=
  e.appendAll ((tableLoad jumpTable).map .plain ++ [.jmpl (.rt 4)])

end Emission

structure Ranged (e : Emission F) (opsTop : Int) (low high jumpTable : Word)
    (tested jump : Emission F) : Prop where
  line : Line e tested ((rangeTest opsTop low high).map .plain ++ [.plain (.branch .gu)])
  line' : Line tested jump ((tableLoad jumpTable).map .plain ++ [.jmpl (.rt 4)])
  sane : Sane tested
  sane' : Sane jump
  above : e.size ≤ tested.cInstr
  size : tested.size = tested.cInstr + 1
  longer : tested.size < jump.cInstr
  size' : jump.size = jump.cInstr + 1
  branch : jump.nodes[tested.cInstr]? = some ⟨.plain (.branch .gu), [tested.size]⟩
  jmpl : jump.nodes[jump.cInstr]? = some ⟨.jmpl (.rt 4), []⟩
  pushes : jump.pushes = e.pushes
  tables : jump.tables = e.tables

theorem ranged {e : Emission F} (sane : Sane e) (opsTop : Int) (low high jumpTable : Word) :
    Ranged e opsTop low high jumpTable (e.rangeBranch opsTop low high)
      ((e.rangeBranch opsTop low high).tableJump jumpTable) := by
  have line : Line e (e.rangeBranch opsTop low high) _ :=
    line_appendAll e sane.cInstr (by simp)
  set tested := e.rangeBranch opsTop low high
  have sane1 := line.sane sane (by simp)
  have line' : Line tested (tested.tableJump jumpTable) _ :=
    line_appendAll tested sane1.cInstr (by simp)
  set jump := tested.tableJump jumpTable
  have size : tested.size = tested.cInstr + 1 := by
    rw [line.last.1, line.size, List.length_append]
    rfl
  have size' : jump.size = jump.cInstr + 1 := by
    rw [line'.last.1, line'.size, List.length_append]
    rfl
  refine ⟨line, line', sane1, line'.sane sane1 (by simp), ?_, size, ?_, size', ?_, line'.last.2,
    line'.pushes.trans line.pushes, line'.tables.trans line.tables⟩
  · rw [line.last.1]
    exact Nat.le_add_right _ _
  · rw [line'.last.1]
    exact Nat.lt_add_of_pos_right (Nat.succ_pos _)
  · rw [line'.parent, line.last.2]
    rfl

section Jump

variable {graph : Graph F} {layout : Layout graph.length} {environment : Environment F}
variable {kind : Nat → Prop} {e last : Emission F} {base : Nat} {entry : Nat → Nat}

variable (layout environment kind) in
/-- A key out of range goes to the default, another one to the jump with the word of its place
in the table. -/
theorem goes_tableJump {opsTop : Int} {low high jumpTable : Word} {default : Nat}
    {tested jump : Emission F} (ranged : Ranged e opsTop low high jumpTable tested jump)
    (placed : Placed graph last base entry e.size)
    (frame : Frame (fun n => n = tested.cInstr ∨ jump.cInstr ≤ n) jump last)
    (branch : graph[base + tested.cInstr]? =
      some ⟨.plain (.branch .gu), [base + tested.size, base + default]⟩)
    (inside : ∀ n, e.size ≤ n → n < jump.size → kind (base + n))
    (outside : kind (base + default)) (s : State Reg F) :
    ∃ s', Kept s s' ∧
      if high - low < s.read (.is opsTop) - low then
        Goes graph layout environment kind (base + e.size, s) (base + default, s')
      else
        Goes graph layout environment kind (base + e.size, s) (base + jump.cInstr, s') ∧
        s'.read (.rt 4) = s.mem.load (jumpTable + (s.read (.is opsTop) - low) <<< 2) .w := by
  have above := ranged.above
  have size := ranged.size
  have longer := ranged.longer
  have size' := ranged.size'
  obtain ⟨t, kept, icc, distance, run⟩ := run_rangeTest environment s opsTop low high
  have toBranch : Goes graph layout environment kind (base + e.size, s)
      (base + tested.cInstr, t) :=
    goes_placed ranged.line placed
      (fun n above below => (frame.nodes n (by omega) (by omega)).trans
        (ranged.line'.frame.nodes n (by omega) (by omega)))
      run fun n above below => inside n above (by omega)
  have branches : step graph layout environment (base + tested.cInstr, t) = _ :=
    step_branch branch
  rw [icc, Cond.holds_gu] at branches
  by_cases out : high - low < s.read (.is opsTop) - low
  · refine ⟨t, kept, ?_⟩
    rw [if_pos out]
    rw [decide_eq_true out, if_pos rfl] at branches
    exact toBranch.trans (Goes.single branches outside)
  · obtain ⟨s', kept', address, run'⟩ := run_tableLoad environment t jumpTable
    refine ⟨s', kept.trans kept', ?_⟩
    rw [if_neg out]
    rw [decide_eq_false out, if_neg nofun] at branches
    have toLoad := toBranch.trans
      (Goes.single branches (inside tested.size (by omega) (by omega)))
    refine ⟨toLoad.trans (goes_placed ranged.line' (placed.mono (by omega))
      (fun n above below => frame.nodes n (by omega) (by omega)) run' fun n above below =>
      inside n (by omega) (by omega)), ?_⟩
    rw [address, kept.mem, distance]

theorem step_table {jumpInstr index number node : Nat} {address : Word} {entries succs : List Nat}
    {mem : Memory} {s : State Reg F}
    (holds : Holds mem address (tableWords graph layout jumpInstr entries))
    (jump : graph[jumpInstr]? = some ⟨.jmpl (.rt 4), succs⟩)
    (place : entries[index]? = some number) (succ : succs[number]? = some node)
    (inside : node < graph.length)
    (loaded : s.read (.rt 4) = mem.load (address + BitVec.ofNat 32 index <<< 2) .w) :
    step graph layout environment (jumpInstr, s) = some (node, s) := by
  have found : getSucc graph jumpInstr number = some node := by
    rw [getSucc, jump]
    exact succ
  have word : (tableWords graph layout jumpInstr entries)[index]? =
      some (layout.address node) := by
    rw [tableWords, List.getElem?_map, place, Option.map_some, found]
    rfl
  exact step_jmpl jump inside (loaded.trans (holds index _ word))

end Jump

/-! Destinations are pushed in the reverse of the order in which they are popped. -/

def Emission.processAll (e : Emission F) (npcs : List Nat) : Emission F :=
  npcs.reverse.foldl Emission.process e

theorem processAll_eq (e : Emission F) (npcs : List Nat) :
    e.processAll npcs =
      { e with pushes := e.pushes ++ npcs.reverse.map fun npc => (e.cInstr, npc) } := by
  unfold Emission.processAll
  generalize npcs.reverse = pushed
  induction pushed generalizing e with
  | nil => simp
  | cons npc pushed ih =>
      rw [List.foldl_cons, ih]
      simp [Emission.process]

@[simp] theorem nodes_processAll (e : Emission F) (npcs : List Nat) :
    (e.processAll npcs).nodes = e.nodes := by
  rw [processAll_eq]

@[simp] theorem tables_processAll (e : Emission F) (npcs : List Nat) :
    (e.processAll npcs).tables = e.tables := by
  rw [processAll_eq]

theorem targets_processAll (e : Emission F) (npcs : List Nat) (n : Nat) :
    (e.processAll npcs).targets n =
      if n = e.cInstr then npcs ++ e.targets n else e.targets n := by
  rw [processAll_eq]
  by_cases same : n = e.cInstr
  · subst same
    simp [Emission.targets, List.filter_map, Function.comp_def]
  · simp [Emission.targets, List.filter_map, Function.comp_def, same, Ne.symm same]

theorem frame_processAll (e : Emission F) (npcs : List Nat) :
    Frame (· = e.cInstr) e (e.processAll npcs) where
  size := by rw [processAll_eq]
  nodes _ _ _ := by rw [processAll_eq]
  targets n _ closed := by rw [targets_processAll, if_neg closed]
  tables := ⟨[], by rw [processAll_eq, List.append_nil]⟩

end LaTTe.Switches
