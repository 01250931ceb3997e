import LaTTe.Switches.JumpTable
import LaTTe.Switches.Translated

namespace LaTTe.Switches

open LaTTe.Sparc (Word Instr State Environment runLine Op Operand Cond Icc Memory)
open LaTTe.Sequences (Reg g0 hi lo)

variable {F : Type}

/-! The translation of `tableswitch`. -/

structure Tableswitch where
  low : Word
  high : Word
  default : Int
  offsets : List Int
  le : low.toInt ≤ high.toInt
  level : (offsets.length : Int) = high.toInt - low.toInt + 1
  short : offsets.length < 2 ^ 16

def npcAt (pc : Nat) (offset : Int) : Nat := (pc + offset).toNat

def startEmission : Emission F := ⟨[⟨.plain .nop, []⟩], 0, [], []⟩

namespace Tableswitch

def target (switch : Tableswitch) (key : Word) : Int :=
  if switch.low.toInt ≤ key.toInt ∧ key.toInt ≤ switch.high.toInt then
    switch.offsets.getD (key.toInt - switch.low.toInt).toNat 0
  else switch.default

/-- The default behind the branch of `tested`, and the destinations behind the jump. -/
def destinations (switch : Tableswitch) (pc : Nat) (tested jump : Emission F) : Emission F :=
  let table := collect [] switch.offsets
  let behind := (jump.resume tested.cInstr).append (.plain (.alu .add g0 (.it 0) (.imm 0)))
  let defaulted := behind.process (npcAt pc switch.default)
  ((defaulted.resume jump.cInstr).addTable table.2).processAll (table.1.map (npcAt pc))

def translate (switch : Tableswitch) (pc : Nat) (opsTop : Int) (jumpTable : Word) : Emission F :=
  let tested := (startEmission : Emission F).rangeBranch opsTop switch.low switch.high
  switch.destinations pc tested (tested.tableJump jumpTable)

variable (switch : Tableswitch)

section Code

variable (pc : Nat) (opsTop : Int) (jumpTable : Word)

structure Shape (tested jump code : Emission F) : Prop where
  ranged : Ranged startEmission opsTop switch.low switch.high jumpTable tested jump
  frame : Frame (fun n => n = tested.cInstr ∨ jump.cInstr ≤ n) jump code
  entry : code.nodes[0]? = some ⟨.plain .nop, [1]⟩
  branch : code.nodes[tested.cInstr]? = some ⟨.plain (.branch .gu), [tested.size, jump.size]⟩
  jmpl : code.nodes[jump.cInstr]? = some ⟨.jmpl (.rt 4), []⟩
  default : code.nodes[jump.size]? = some ⟨.plain (.alu .add g0 (.it 0) (.imm 0)), []⟩
  size : code.size = jump.size + 1
  targets : ∀ n, code.targets n =
    if n = jump.cInstr then (collect [] switch.offsets).1.map (npcAt pc)
    else if n = jump.size then [npcAt pc switch.default] else []
  tables : code.tables = [⟨jump.cInstr, (collect [] switch.offsets).2⟩]
  sane : Sane code
  pushes : code.pushes.length = (collect [] switch.offsets).1.length + 1

variable {pc opsTop jumpTable switch}

theorem shape_destinations {tested jump : Emission F}
    (ranged : Ranged startEmission opsTop switch.low switch.high jumpTable tested jump) :
    switch.Shape pc opsTop jumpTable tested jump (switch.destinations pc tested jump) := by
  unfold destinations
  set table := collect [] switch.offsets
  obtain ⟨behind, made⟩ : ∃ behind, behind =
      (jump.resume tested.cInstr).append (.plain (.alu .add g0 (.it 0) (.imm 0))) := ⟨_, rfl⟩
  have above : 1 ≤ tested.cInstr := ranged.above
  have size := ranged.size
  have longer := ranged.longer
  have size' := ranged.size'
  have inside : tested.cInstr < jump.size := by omega
  have line : Line (jump.resume tested.cInstr) behind _ := made ▸ line_append _ inside _
  have place : behind.cInstr = jump.size := line.cInstr
  have pushes : behind.pushes = [] := line.pushes.trans ranged.pushes
  have tables : behind.tables = [] := line.tables.trans ranged.tables
  have kept : ∀ n < jump.size, n ≠ tested.cInstr → behind.nodes[n]? = jump.nodes[n]? := line.kept
  rw [← made]
  have sizes : behind.nodes.length = jump.size + 1 := line.size
  refine ⟨ranged, ?_, ?_, ?_, ?_, ?_, ?_, ?_, ?_, ?_, ?_⟩
  · have append : Frame (fun n => n = tested.cInstr ∨ jump.cInstr ≤ n) jump behind :=
      (frame_resume jump _ tested.cInstr).trans (line.frame.mono fun n _ same => .inl same)
    have push : Frame (fun n => n = tested.cInstr ∨ jump.cInstr ≤ n) behind
        (behind.process (npcAt pc switch.default)) :=
      (frame_process behind _).mono fun n _ same => .inr (by omega)
    refine (append.trans push).trans (((frame_resume _ _ jump.cInstr).trans
      (frame_addTable _ _ table.2)).trans ((frame_processAll _ _).mono ?_))
    exact fun n _ same => .inr (Nat.le_of_eq same.symm)
  · rw [nodes_processAll]
    exact (kept 0 (by omega) (by omega)).trans
      ((ranged.line'.kept 0 (by omega) (by omega)).trans ranged.line.parent)
  · rw [nodes_processAll]
    exact line.parent.trans (congrArg (Option.map (·.addSucc jump.size)) ranged.branch)
  · rw [nodes_processAll]
    exact (kept jump.cInstr (by omega) (by omega)).trans ranged.jmpl
  · rw [nodes_processAll]
    exact line.nodes 0 _ rfl
  · rw [Emission.size, nodes_processAll]
    exact line.size
  · intro n
    have none : behind.targets n = [] := by
      rw [Emission.targets, pushes]
      rfl
    rw [targets_processAll, Emission.targets_addTable, Emission.targets_resume, targets_process,
      none, place, Emission.cInstr_addTable, Emission.cInstr_resume]
    by_cases jumps : n = jump.cInstr
    · rw [if_pos jumps, if_pos jumps, if_neg (by omega), List.append_nil]
    · rw [if_neg jumps, if_neg jumps]
  · simp [tables, table]
  · constructor
    · simp only [processAll_eq, Emission.size, Emission.nodes_addTable, Emission.nodes_resume,
        Emission.nodes_process, Emission.cInstr_addTable, Emission.cInstr_resume]
      omega
    · intro push mem
      simp only [processAll_eq, Emission.pushes_addTable, Emission.pushes_resume,
        Emission.cInstr_addTable, Emission.cInstr_resume] at mem
      rw [Emission.process, pushes, List.nil_append] at mem
      simp only [Emission.size, nodes_processAll, Emission.nodes_addTable, Emission.nodes_resume,
        Emission.nodes_process]
      rcases List.mem_append.mp mem with default | dest
      · rw [List.mem_singleton.mp default, place]
        omega
      · obtain ⟨npc, _, rfl⟩ := List.mem_map.mp dest
        omega
  · simp [processAll_eq, Emission.process, pushes, table]

variable {graph : Graph F} {layout : Layout graph.length} {environment : Environment F}
variable {kind : Nat → Prop} {base : Nat} {entry : Nat → Nat}
variable {tested jump code : Emission F}

theorem offset_of_within {key : Word}
    (within : switch.low.toInt ≤ key.toInt ∧ key.toInt ≤ switch.high.toInt) :
    switch.offsets[(key - switch.low).toNat]? = some (switch.target key) := by
  have level := switch.level
  have bound : (key - switch.low).toNat < switch.offsets.length := by
    rw [toNat_distance within.1]
    omega
  rw [target, if_pos within, ← toNat_distance within.1, List.getD_eq_getElem?_getD,
    List.getElem?_eq_getElem bound]
  rfl

variable (environment kind) in
/-- The code goes to the target of the key on the stack. -/
theorem goes_target (shape : switch.Shape pc opsTop jumpTable tested jump code)
    (placed : Placed graph code base entry 0)
    (inside : ∀ n, ∀ npc ∈ code.targets n, entry npc < graph.length)
    (kinds : ∀ n, 0 < n → n < code.size → kind (base + n)) {s : State Reg F}
    (tables : Initialized graph layout base (fun _ => jumpTable) code.tables s.mem) :
    ∃ n last s', npcAt pc (switch.target (s.read (.is opsTop))) ∈ code.targets n ∧
      Kept s s' ∧ Goes graph layout environment kind (base, s) last ∧
      step graph layout environment last =
        some (entry (npcAt pc (switch.target (s.read (.is opsTop)))), s') := by
  have ranged := shape.ranged
  have above : 1 ≤ tested.cInstr := ranged.above
  have size := ranged.size
  have longer := ranged.longer
  have size' := ranged.size'
  have size3 := shape.size
  have entered : step graph layout environment (base, s) = some (base + 1, s) := by
    have stands := placed 0 _ (Nat.le_refl _) shape.entry
    rw [Nat.add_zero] at stands
    simp [step, stands, Instr.exec]
  have branch := placed tested.cInstr _ (Nat.zero_le _) shape.branch
  rw [shape.targets, if_neg (by omega), if_neg (by omega)] at branch
  have jmpl := placed jump.cInstr _ (Nat.zero_le _) shape.jmpl
  have default := placed jump.size _ (Nat.zero_le _) shape.default
  rw [shape.targets, if_neg (by omega), if_pos rfl] at default
  obtain ⟨s', kept, goes⟩ := goes_tableJump layout environment kind ranged
    (placed.mono (Nat.zero_le _)) shape.frame branch
    (fun n above below => kinds n above (by omega)) (kinds jump.size (by omega) (by omega)) s
  have start := Goes.single entered (kinds 1 Nat.one_pos (by omega))
  by_cases within : switch.low.toInt ≤ (s.read (.is opsTop)).toInt ∧
      (s.read (.is opsTop)).toInt ≤ switch.high.toInt
  · have near : ¬ switch.high - switch.low < s.read (.is opsTop) - switch.low :=
      fun far => (out_of_range_iff switch.le).mp far within
    rw [if_neg near] at goes
    obtain ⟨j, number, dest⟩ := getElem?_collect [] (switch.offset_of_within within)
    have target : ((code.targets jump.cInstr).map entry)[j]? =
        some (entry (npcAt pc (switch.target (s.read (.is opsTop))))) := by
      rw [shape.targets, if_pos rfl, List.getElem?_map, List.getElem?_map, dest]
      rfl
    have mem : npcAt pc (switch.target (s.read (.is opsTop))) ∈ code.targets jump.cInstr := by
      rw [shape.targets, if_pos rfl]
      exact List.mem_map_of_mem (List.mem_of_getElem? dest)
    have word : BitVec.ofNat 32 (s.read (.is opsTop) - switch.low).toNat =
        s.read (.is opsTop) - switch.low := BitVec.ofNat_toNat _ _ |>.trans (BitVec.setWidth_eq _)
    refine ⟨_, _, s', mem, kept, start.trans goes.1, ?_⟩
    refine step_table (tables 0 _ (by rw [shape.tables]; rfl)) jmpl number ?_ (inside _ _ mem) ?_
    · simpa using target
    · rw [goes.2, word]
  · rw [if_pos ((out_of_range_iff switch.le).mpr within)] at goes
    have final := kept.trans (kept_alu_g0 s' .add (.it 0) (.imm 0))
    have mem : npcAt pc switch.default ∈ code.targets jump.size := by
      rw [shape.targets, if_neg (by omega), if_pos rfl]
      exact List.mem_singleton_self _
    rw [target, if_neg within]
    refine ⟨_, _, _, mem, final, start.trans goes, ?_⟩
    simp [step, default, Instr.exec, Op.divides, Op.isLong, Op.shifts]

end Code

theorem sane_start : Sane (startEmission : Emission F) := ⟨Nat.one_pos, nofun⟩

theorem shape_translate (pc : Nat) (opsTop : Int) (jumpTable : Word) :
    ∃ tested jump : Emission F,
      switch.Shape pc opsTop jumpTable tested jump (switch.translate pc opsTop jumpTable) :=
  ⟨_, _, shape_destinations (ranged sane_start opsTop switch.low switch.high jumpTable)⟩

theorem sane_translate (pc : Nat) (opsTop : Int) (jumpTable : Word) :
    Sane (switch.translate pc opsTop jumpTable : Emission F) := by
  obtain ⟨tested, jump, shape⟩ := switch.shape_translate pc opsTop jumpTable
  exact shape.sane

def block (pc : Nat) (opsTop : Int) (jumpTable : Word) : Block F :=
  (switch.translate pc opsTop jumpTable).block (switch.sane_translate pc opsTop jumpTable)

/-- In the translated method the jump has the translation of each destination as the successor of
its number, and control goes from the bytecode to that of its target. -/
structure Right (pc : Nat) (opsTop : Int) (jumpTable : Word) (t : Traversal F) (base : Nat) :
    Prop where
  successors : ∀ table ∈ (switch.translate pc opsTop jumpTable : Emission F).tables,
    ∀ k dest, (collect [] switch.offsets).1[k]? = some dest →
      ∃ node, t.translatedInstrs (npcAt pc dest) = some node ∧
        getSucc t.graph (base + table.jumpInstr) k = some node
  transfers : ∀ (layout : Layout t.graph.length) (environment : Environment F) (s : State Reg F),
    Initialized t.graph layout base (fun _ => jumpTable)
      (switch.translate pc opsTop jumpTable : Emission F).tables s.mem →
      ∃ node s', t.translatedInstrs (npcAt pc (switch.target (s.read (.is opsTop)))) = some node ∧
        Transfers t.graph layout environment t.IsEntry (base, s) (node, s') ∧ Kept s s'

section Method

variable {switch} {m : Method F} {t : Traversal F} {pc base : Nat} {opsTop : Int}
variable {jumpTable : Word}

theorem right_of_finished (code : m.block pc = some (switch.block pc opsTop jumpTable))
    (finished : Traversal.Finished m t) (translated : t.translatedInstrs pc = some base) :
    switch.Right pc opsTop jumpTable t base := by
  obtain ⟨placed, known⟩ := finished.installed translated code
  obtain ⟨tested, jump, shape⟩ := switch.shape_translate (F := F) pc opsTop jumpTable
  have inside : ∀ n, ∀ npc ∈ (switch.translate pc opsTop jumpTable : Emission F).targets n,
      t.entry npc < t.graph.length :=
    fun n npc mem => finished.1.sound.below (known n npc mem)
  constructor
  · intro table mem k dest found
    rw [shape.tables] at mem
    cases List.mem_singleton.mp mem
    have asked : npcAt pc dest ∈
        (switch.translate pc opsTop jumpTable : Emission F).targets jump.cInstr := by
      rw [shape.targets, if_pos rfl]
      exact List.mem_map_of_mem (List.mem_of_getElem? found)
    refine ⟨_, known _ _ asked, ?_⟩
    rw [getSucc, placed jump.cInstr _ (Nat.zero_le _) shape.jmpl, shape.targets, if_pos rfl]
    simp [found]
  · intro layout environment s tables
    obtain ⟨n, last, s', asked, kept, goes, taken⟩ := goes_target environment
      (fun node => ¬ t.IsEntry node) shape placed inside
      (fun n positive below => finished.not_entry translated code positive below) tables
    exact ⟨_, s', known n _ asked, ⟨last, goes, taken, _, known n _ asked⟩, kept⟩

/-- The method is translated, and its tableswitch goes where it should, exactly when the
traversal never writes behind its stack. -/
theorem tableswitch_exact (code : m.block pc = some (switch.block pc opsTop jumpTable)) :
    (∃ t, Traversal.Finished m t ∧
      ∀ base, t.translatedInstrs pc = some base → switch.Right pc opsTop jumpTable t base) ↔
      ∀ t, Traversal.Reached m t → Traversal.Careful m t := by
  rw [← Traversal.finishes_iff]
  constructor
  · rintro ⟨t, finished, _⟩
    exact ⟨t, finished⟩
  · rintro ⟨t, finished⟩
    exact ⟨t, finished, fun base translated => right_of_finished code finished translated⟩

end Method

/-! A switch with `count` destinations, each a bytecode that returns. -/

section Counting

variable {count : Nat} (positive : 0 < count) (short : count < 2 ^ 16)

include positive short in
theorem toInt_highest : (BitVec.ofNat 32 (count - 1)).toInt = count - 1 := by
  have small : (BitVec.ofNat 32 (count - 1)).toNat = count - 1 := by
    rw [BitVec.toNat_ofNat, Nat.mod_eq_of_lt (by omega)]
  rw [BitVec.toInt_eq_toNat_of_lt (by omega), small]
  omega

def counting : Tableswitch where
  low := 0
  high := BitVec.ofNat 32 (count - 1)
  default := (16 + 5 * count : Nat)
  offsets := (List.range count).map fun i => ((16 + 4 * count + i : Nat) : Int)
  le := by
    have zero : (0 : Word).toInt = 0 := rfl
    rw [toInt_highest positive short, zero]
    omega
  level := by
    have zero : (0 : Word).toInt = 0 := rfl
    rw [toInt_highest positive short, zero, List.length_map, List.length_range]
    omega
  short := by simpa using short

theorem dests_counting :
    (collect [] (counting positive short).offsets).1 = (counting positive short).offsets := by
  refine (collect_of_nodup ?_).trans (List.nil_append _)
  refine List.Nodup.map ?_ List.nodup_range
  intro i j same
  simpa using same

def returning : Block Unit where
  nodes := [⟨.plain .nop, []⟩]
  pushes := []
  next := none
  some := Nat.one_pos
  parents := nofun
  last := nofun

def countingMethod : Method Unit where
  prologue := [⟨.plain .nop, []⟩]
  lastInstr := 0
  startPc := 0
  length := 17 + 5 * count
  block pc := some (if pc = 0 then (counting positive short).block 0 1 0 else returning)
  inside := Nat.one_pos
  start := by omega
  closed pc _ code found n npc asked := by
    cases found
    by_cases first : pc = 0
    · rw [if_pos first, block, Emission.targets_block] at asked
      obtain ⟨tested, jump, shape⟩ := (counting positive short).shape_translate (F := Unit) 0 1 0
      rw [shape.targets, dests_counting] at asked
      split at asked
      · obtain ⟨offset, mem, rfl⟩ := List.mem_map.mp asked
        obtain ⟨i, below, rfl⟩ := List.mem_map.mp mem
        have := List.mem_range.mp below
        simp only [npcAt]
        omega
      · split at asked
        · rw [List.mem_singleton.mp asked]
          simp only [npcAt, counting]
          omega
        · contradiction
    · rw [if_neg first] at asked
      simp [Block.targets, returning] at asked

theorem not_careful_start (many : maxStackSize ≤ count) :
    ¬ Traversal.Careful (countingMethod positive short)
      (Traversal.start (countingMethod positive short)) := by
  intro careful
  obtain ⟨code, found, room⟩ : ∃ code, (countingMethod positive short).block 0 = some code ∧
      (code.pushes = [] ∨ 0 + code.pushes.length ≤ maxStackSize) := careful _ _ rfl rfl
  have first : (countingMethod positive short).block 0 =
      some (block (counting positive short) 0 1 0) := rfl
  cases Option.some.inj (first.symm.trans found)
  obtain ⟨tested, jump, shape⟩ := (counting positive short).shape_translate (F := Unit) 0 1 0
  have pushed : (block (F := Unit) (counting positive short) 0 1 0).pushes.length = count + 1 := by
    refine shape.pushes.trans ?_
    rw [dests_counting, counting, List.length_map, List.length_range]
  rcases room with none | room
  · rw [none] at pushed
    contradiction
  · omega

end Counting

def small : Method Unit := countingMethod Nat.two_pos (by decide)

def large : Method Unit := countingMethod (by decide : 0 < 1000) (by decide)

theorem tableswitch_exact_two :
    (∃ t, Traversal.Finished small t ∧ ∀ base, t.translatedInstrs 0 = some base →
      (counting Nat.two_pos (by decide)).Right 0 1 0 t base) ↔
      ∀ t, Traversal.Reached small t → Traversal.Careful small t :=
  tableswitch_exact rfl

/-- A switch with a thousand destinations. -/
theorem tableswitch_overflows :
    ¬ ∃ t, Traversal.Finished large t ∧ ∀ base, t.translatedInstrs 0 = some base →
      (counting (by decide : 0 < 1000) (by decide)).Right 0 1 0 t base := by
  rintro ⟨t, finished, _⟩
  have careful := (Traversal.finishes_iff large).mp ⟨t, finished⟩
  exact not_careful_start _ _ (Nat.le_refl 1000) (careful _ .refl)

end Tableswitch

end LaTTe.Switches
