import LaTTe.Sequences.Emit
import LaTTe.Threads.Locks

namespace LaTTe.Sequences

open LaTTe.Sparc LaTTe.Threads.Locks
open Emit Reg

/-! Monitors. -/

/-- `CSeq_create_monitorenter_code`; the variable `currentThreadID` is at that address. -/
def createMonitorenterCode (currentThreadID : Word) (refReg : Reg) : Emit Function Unit := do
  let _ ← format2 (it 1) (hi currentThreadID)
  let _ ← load5 .uh (it 6) (it 1) (lo currentThreadID)
  -- START
  let start ← load5 .uh (it 0) refReg 4
  let _ ← format5 .subcc g0 (it 0) 1
  let branch1 ← format3 .gu
  -- MOST_PROBABLE_CASE
  let _ ← format5 .add (it 3) (it 0) 2
  let _ ← format5 .sll (it 4) (it 3) 16
  let _ ← format6 .or (it 5) (it 4) (it 6)
  let _ ← format8 .w (it 5) refReg 4
  -- EXIT
  let join ← format6 .add g0 (it 6) g0
  -- SECOND_PROBABLE_CASE
  resume branch1
  let _ ← load5 .uh (it 3) refReg 6
  let _ ← format6 .subcc g0 (it 3) (it 6)
  let branch2 ← format3 .ne
  let _ ← format5 .add (it 3) (it 0) 2
  let store ← format8 .uh (it 3) refReg 4
  connect store join
  -- LEAST_PROBABLE_CASE
  resume branch2
  let _ ← format6 .add g0 (it 0) g0
  let _ ← format6 .add (rt 7) refReg g0
  let call ← append (.call .waitInQueue [rt 7])
  connect call start
  resume join

def createMonitorexitCode (refReg : Reg) : Emit Function Unit := do
  let _ ← load5 .uh (it 0) refReg 4
  let _ ← format5 .subcc (it 1) (it 0) 2
  let checkBranch ← format3 .cs
  let _ ← format8 .uh (it 1) refReg 4
  let _ ← format5 .subcc g0 (it 1) 1
  let branch ← format3 .e
  -- MORE_PROBABLE_CASE
  let _ ← format6 .add g0 refReg g0
  -- EXIT
  let join ← append .nop
  -- LESS_PROBABLE_CASE
  resume branch
  let call ← append (.call .wakeupWaiter [refReg])
  connect call join
  -- THROW_EXCEPTION
  resume checkBranch
  let _ ← append (.ta 0x15)
  resume join

def translateMonitorenter (currentThreadID : Word) (opsTop : Int) : Emit Function Unit :=
  createMonitorenterCode currentThreadID (rs opsTop)

def translateMonitorexit (opsTop : Int) : Emit Function Unit :=
  createMonitorexitCode (rs opsTop)

/-- What the sequences ask of a method; `definingClass` is the address of its class. -/
structure MethodInfo where
  isStatic : Bool
  isSynchronized : Bool
  definingClass : Word

def loadMonitor (method : MethodInfo) (refReg : Reg) : Emit Function Unit := do
  if method.isStatic then
    let _ ← format2 (rt 0) (hi method.definingClass)
    let _ ← format5 .or refReg (rt 0) (lo method.definingClass)
  else
    let _ ← format6 .add refReg (rl 0) g0

/-- `CSeq_insert_monitorenter_code`, behind the head of the method. -/
def insertMonitorenterCode (currentThreadID : Word) (method : MethodInfo) :
    Emit Function Unit := do
  loadMonitor method (rt 8)
  createMonitorenterCode currentThreadID (rt 8)

def createFunctionEpilogueCode (method : MethodInfo) : Emit Function Unit := do
  let _ ← append .nop
  if method.isSynchronized then
    loadMonitor method (rt 6)
    createMonitorexitCode (rt 6)

/-- The exception that `EH_trap_handler` throws for a trap instruction. -/
def trapException : Nat → Option Exception
  | 0x10 => some .nullPointer
  | 0x11 => some .arrayIndexOutOfBounds
  | 0x12 => some .negativeArraySize
  | 0x13 => some .arrayStore
  | 0x14 => some .classCast
  | 0x15 => some .illegalMonitorState
  | _ => none

def observe (cInstr : Nat) : Outcome Reg Function → Option Result
  | .left last successor s =>
      if last = cInstr ∧ successor = 0 then some (.returned ⟨s.mem, s.calls⟩) else none
  | .trapped (.software number) s =>
      (trapException number).map fun exception => .threw exception ⟨s.mem, s.calls⟩
  | .trapped .divisionByZero _ => none

def Results (emit : Emit Function Unit) (environment : Environment Function)
    (s : State Reg Function) (result : Result) : Prop :=
  ∃ outcome, (emission emit).code.Ends environment 0 s outcome ∧
    observe (emission emit).cInstr outcome = some result

/-! The graphs. -/

def enterCode (currentThreadID : Word) (refReg : Reg) : Code Reg Function where
  instrs := [
    .sethi (it 1) (hi currentThreadID),
    .load .uh (it 6) (it 1) (.imm (lo currentThreadID)),
    .load .uh (it 0) refReg (.imm 4),
    .alu .subcc g0 (it 0) (.imm 1),
    .branch .gu,
    .alu .add (it 3) (it 0) (.imm 2),
    .alu .sll (it 4) (it 3) (.imm 16),
    .alu .or (it 5) (it 4) (.reg (it 6)),
    .store .w (it 5) refReg (.imm 4),
    .alu .add g0 (it 6) (.reg g0),
    .load .uh (it 3) refReg (.imm 6),
    .alu .subcc g0 (it 3) (.reg (it 6)),
    .branch .ne,
    .alu .add (it 3) (it 0) (.imm 2),
    .store .uh (it 3) refReg (.imm 4),
    .alu .add g0 (it 0) (.reg g0),
    .alu .add (rt 7) refReg (.reg g0),
    .call .waitInQueue [rt 7]]
  succs := [[1], [2], [3], [4], [5, 10], [6], [7], [8], [9], [], [11], [12], [13, 15], [14], [9],
    [16], [17], [2]]

def exitCode (refReg : Reg) : Code Reg Function where
  instrs := [
    .load .uh (it 0) refReg (.imm 4),
    .alu .subcc (it 1) (it 0) (.imm 2),
    .branch .cs,
    .store .uh (it 1) refReg (.imm 4),
    .alu .subcc g0 (it 1) (.imm 1),
    .branch .e,
    .alu .add g0 refReg (.reg g0),
    .nop,
    .call .wakeupWaiter [refReg],
    .ta 0x15]
  succs := [[1], [2], [3, 9], [4], [5], [6, 8], [7], [], [7], []]

def entry (instrs : List (Instr Reg Function)) : Code Reg Function where
  instrs := instrs
  succs := (List.range instrs.length).map fun node => [node + 1]

def monitorPrefix (method : MethodInfo) (refReg : Reg) : List (Instr Reg Function) :=
  if method.isStatic then
    [.sethi (rt 0) (hi method.definingClass), .alu .or refReg (rt 0) (.imm (lo method.definingClass))]
  else
    [.alu .add refReg (rl 0) (.reg g0)]

theorem emission_monitorenter (currentThreadID : Word) (opsTop : Int) :
    emission (translateMonitorenter currentThreadID opsTop) =
      ⟨(entry [.nop]).behind (enterCode currentThreadID (rs opsTop)), 10⟩ := by
  simp [translateMonitorenter, createMonitorenterCode, emission, format2, format3, format5, format6,
    format8, load5, entry, Code.behind, enterCode, List.range_succ]

theorem emission_monitorexit (opsTop : Int) :
    emission (translateMonitorexit opsTop) =
      ⟨(entry [.nop]).behind (exitCode (rs opsTop)), 8⟩ := by
  simp [translateMonitorexit, createMonitorexitCode, emission, format3, format5, format6,
    format8, load5, entry, Code.behind, exitCode, List.range_succ]

theorem emission_insertMonitorenter (currentThreadID : Word) (method : MethodInfo) :
    emission (insertMonitorenterCode currentThreadID method) =
      let before := entry (.nop :: monitorPrefix method (rt 8))
      ⟨before.behind (enterCode currentThreadID (rt 8)), before.instrs.length + 9⟩ := by
  cases static : method.isStatic <;>
  simp [insertMonitorenterCode, loadMonitor, static, createMonitorenterCode, emission, format2, format3, format5, format6,
    format8, load5, entry, Code.behind, enterCode, List.range_succ, monitorPrefix]

theorem emission_epilogue (method : MethodInfo) (synchronized : method.isSynchronized) :
    emission (createFunctionEpilogueCode method) =
      let before := entry (.nop :: .nop :: monitorPrefix method (rt 6))
      ⟨before.behind (exitCode (rt 6)), before.instrs.length + 7⟩ := by
  cases static : method.isStatic <;>
  simp [createFunctionEpilogueCode, synchronized, loadMonitor, static, createMonitorexitCode, emission, format2, format3, format5, format6,
    format8, load5, entry, Code.behind, exitCode, List.range_succ, monitorPrefix]

section Enter

variable {currentThreadID : Word} {refReg : Reg} (environment : Environment Function)

structure AtStart (currentThreadID obj : Word) (refReg : Reg) (s : State Reg Function)
    (world : World) : Prop where
  mem : s.mem = world.mem
  calls : s.calls = world.calls
  ref : s.read refReg = obj
  current : s.read (it 6) = (world.mem.half currentThreadID).setWidth 32

variable {s : State Reg Function} {world : World} {obj : Word}

theorem reaches_start (fixed : ∀ a, refReg ≠ it a) :
    ∃ s', (enterCode currentThreadID refReg).Reaches environment 0 s 2 s' ∧
      AtStart currentThreadID (s.read refReg) refReg s' ⟨s.mem, s.calls⟩ := by
  refine ⟨_, (Code.Reaches.step rfl rfl rfl).trans (.step rfl rfl rfl), ?_⟩
  constructor
  · simp
  · simp
  · simp [State.read_write, fixed]
  · simp [State.read_write, it, hi_add_lo, Memory.load]

theorem reaches_branch1 (fixed : ∀ a, refReg ≠ it a)
    (start : AtStart currentThreadID obj refReg s world) :
    ∃ s', (enterCode currentThreadID refReg).Reaches environment 2 s
        (if semaphore world.mem obj < 2 then 5 else 10) s' ∧
      AtStart currentThreadID obj refReg s' world ∧
      s'.read (it 0) = (semaphore world.mem obj).setWidth 32 := by
  set s1 := s.write (it 0) (s.mem.load (s.read refReg + 4) .uh)
  set s2 := s1.alu .subcc g0 (it 0) (.imm 1)
  have loaded : s1.read (it 0) = (semaphore world.mem obj).setWidth 32 := by
    simp [s1, State.read_write, it, Reg.var_ne_zero, Memory.load, semaphore, start.ref, start.mem]
  have line : (enterCode currentThreadID refReg).Reaches environment 2 s 4 s2 :=
    .trans (.step rfl rfl rfl) (.alu rfl rfl rfl rfl)
  have branch : (enterCode currentThreadID refReg).Reaches environment 4 s2
      (if Cond.gu.holds s2.icc then 10 else 5) s2 := .branch rfl rfl rfl
  have flags : s2.icc = Icc.sub (s1.read (it 0)) 1 false := State.icc_alu _ _ _ _ _
  have free : semaphore world.mem obj < 2 ↔ ¬ (1 : Word) < (semaphore world.mem obj).setWidth 32 := by
    bv_omega
  rw [flags, Cond.holds_gu, loaded] at branch
  refine ⟨s2, ?_, ⟨?_, ?_, ?_, ?_⟩, ?_⟩
  · simp only [free, ite_not]
    simpa using line.trans branch
  · simpa [s2, s1] using start.mem
  · simpa [s2, s1] using start.calls
  · simpa [s2, s1, State.read_alu, State.read_write, fixed] using start.ref
  · simpa [s2, s1, State.read_alu, State.read_write, it] using start.current
  · simpa [s2, State.read_alu] using loaded

theorem reaches_branch2 (fixed : ∀ a, refReg ≠ it a)
    (start : AtStart currentThreadID obj refReg s world)
    (loaded : s.read (it 0) = (semaphore world.mem obj).setWidth 32) :
    ∃ s', (enterCode currentThreadID refReg).Reaches environment 10 s
        (if lockInfo world.mem obj &&& ownerIdMask =
          (world.mem.half currentThreadID).setWidth 32 then 13 else 15) s' ∧
      AtStart currentThreadID obj refReg s' world ∧
      s'.read (it 0) = (semaphore world.mem obj).setWidth 32 := by
  set s1 := s.write (it 3) (s.mem.load (s.read refReg + 6) .uh)
  set s2 := s1.alu .subcc g0 (it 3) (.reg (it 6))
  have owner : s1.read (it 3) = lockInfo world.mem obj &&& ownerIdMask := by
    rw [owner_eq]
    simp [s1, State.read_write, it, Reg.var_ne_zero, Memory.load, start.ref, start.mem]
  have current : s1.read (it 6) = (world.mem.half currentThreadID).setWidth 32 := by
    simpa [s1, State.read_write, it] using start.current
  have line : (enterCode currentThreadID refReg).Reaches environment 10 s 12 s2 :=
    .trans (.step rfl rfl rfl) (.alu rfl rfl rfl rfl)
  have branch : (enterCode currentThreadID refReg).Reaches environment 12 s2
      (if Cond.ne.holds s2.icc then 15 else 13) s2 := .branch rfl rfl rfl
  have flags : s2.icc = Icc.sub (s1.read (it 3)) (s1.read (it 6)) false :=
    State.icc_alu _ _ _ _ _
  rw [flags, Cond.holds_ne, owner, current] at branch
  refine ⟨s2, ?_, ⟨?_, ?_, ?_, ?_⟩, ?_⟩
  · simpa only [ne_eq, decide_not, Bool.not_eq_true', decide_eq_false_iff_not, ite_not]
      using line.trans branch
  · simpa [s2, s1] using start.mem
  · simpa [s2, s1] using start.calls
  · simpa [s2, s1, State.read_alu, State.read_write, fixed] using start.ref
  · simpa [s2, State.read_alu] using current
  · simpa [s2, s1, State.read_alu, State.read_write, it] using loaded

theorem locked_word (value owner : BitVec 16) :
    (value.setWidth 32 + 2) <<< 16 ||| owner.setWidth 32 = (value + 2) ++ owner := by
  have high : (value.setWidth 32 + 2) <<< 16 = (value + 2).setWidth 32 <<< 16 := by
    bv_omega
  rw [high, ← BitVec.setWidth_append_eq_shiftLeft_setWidth_or]
  exact BitVec.setWidth_eq _

theorem store_locked (mem : Memory) (obj : Word) (value owner : BitVec 16) :
    mem.store (obj + 4) ((value.setWidth 32 + 2) <<< 16 ||| owner.setWidth 32) .w =
      setSemaphore (setOwner mem obj owner) obj (value + 2) := by
  have address : obj + 4 + 2 = obj + 6 := by bv_omega
  rw [locked_word, setSemaphore_setOwner, Memory.store, Memory.storeWord,
    BitVec.extractLsb'_append_eq_left, BitVec.setWidth_append_eq_right, address]
  rfl

theorem ends_take (fixed : ∀ a, refReg ≠ it a)
    (start : AtStart currentThreadID obj refReg s world)
    (loaded : s.read (it 0) = (semaphore world.mem obj).setWidth 32) :
    ∃ s', (enterCode currentThreadID refReg).Ends environment 5 s (.left 9 0 s') ∧
      s'.mem = setSemaphore (setOwner world.mem obj (world.mem.half currentThreadID)) obj
        (semaphore world.mem obj + 2) ∧
      s'.calls = world.calls := by
  have current := start.current
  have ref := start.ref
  refine ⟨_, ⟨5, rfl⟩, ?_, start.calls⟩
  rw [← store_locked]
  simp only [it] at *
  simp [State.read_alu, Reg.var_ne_zero, loaded, current, ref, fixed, Op.result, start.mem,
    shiftCount]

theorem ends_again (fixed : ∀ a, refReg ≠ it a)
    (start : AtStart currentThreadID obj refReg s world)
    (loaded : s.read (it 0) = (semaphore world.mem obj).setWidth 32) :
    ∃ s', (enterCode currentThreadID refReg).Ends environment 13 s (.left 9 0 s') ∧
      s'.mem = setSemaphore world.mem obj (semaphore world.mem obj + 2) ∧
      s'.calls = world.calls := by
  have ref := start.ref
  have narrow : ((semaphore world.mem obj).setWidth 32 + 2).setWidth 16 =
      semaphore world.mem obj + 2 := by bv_omega
  refine ⟨_, ⟨3, rfl⟩, ?_, start.calls⟩
  simp only [it] at *
  simp [State.read_alu, Reg.var_ne_zero, loaded, ref, fixed, Op.result, start.mem, Memory.store,
    setSemaphore]
  exact congrArg (world.mem.storeHalf (obj + 4)) narrow

theorem reaches_wait (apart : refReg ≠ rt 7)
    (resumed : ∀ calls mem, (environment ((.waitInQueue, [obj]) :: calls) mem).mem.half
      currentThreadID = mem.half currentThreadID)
    (start : AtStart currentThreadID obj refReg s world) :
    ∃ s', (enterCode currentThreadID refReg).Reaches environment 15 s 2 s' ∧
      AtStart currentThreadID obj refReg s' (world.call environment .waitInQueue obj) := by
  refine ⟨_, ((Code.Reaches.alu rfl rfl rfl rfl).trans (.alu rfl rfl rfl rfl)).trans
    (.step rfl rfl rfl), ?_⟩
  set s1 := (s.alu .add g0 (it 0) (.reg g0)).alu .add (rt 7) refReg (.reg g0)
  have argument : s1.read (rt 7) = obj := by
    simp [s1, State.read_alu, rt, Reg.var_ne_zero, Op.result, start.ref]
  constructor
  · simp [State.called, World.call, argument, s1, start.mem, start.calls]
  · simp [State.called, World.call, argument, s1, start.calls]
  · have ref : s1.read refReg = obj := by
      simpa [s1, State.read_alu, apart] using start.ref
    exact ref
  · have current : s1.read (it 6) = (world.mem.half currentThreadID).setWidth 32 := by
      simpa [s1, State.read_alu, it, rt] using start.current
    rw [World.call, resumed]
    exact current

theorem round_cases (fixed : ∀ a, refReg ≠ it a) (apart : refReg ≠ rt 7)
    (resumed : ∀ calls mem, (environment ((.waitInQueue, [obj]) :: calls) mem).mem.half
      currentThreadID = mem.half currentThreadID)
    (start : AtStart currentThreadID obj refReg s world) :
    match lockMutexRound currentThreadID environment obj world with
    | .inr result => ∃ outcome, (enterCode currentThreadID refReg).Ends environment 2 s outcome ∧
        observe 9 outcome = some result
    | .inl world' => ∃ s', (enterCode currentThreadID refReg).Reaches environment 2 s 2 s' ∧
        AtStart currentThreadID obj refReg s' world' := by
  obtain ⟨s1, branch1, start1, loaded1⟩ := reaches_branch1 environment fixed start
  by_cases free : semaphore world.mem obj < 2
  · rw [if_pos free] at branch1
    obtain ⟨s2, ends, mem, calls⟩ := ends_take environment fixed start1 loaded1
    simp only [lockMutexRound, (free_iff _ _).mpr free, if_true]
    refine ⟨_, branch1.ends_iff.mpr ends, ?_⟩
    simp [observe, mem, calls, semaphore_setOwner]
  · rw [if_neg free] at branch1
    have held : ¬ lockInfo world.mem obj &&& semaphoreMask = 0 := fun zero =>
      free ((free_iff _ _).mp zero)
    obtain ⟨s2, branch2, start2, loaded2⟩ :=
      reaches_branch2 environment fixed start1 loaded1
    have line := branch1.trans branch2
    simp only [lockMutexRound, held, if_false]
    by_cases own : lockInfo world.mem obj &&& ownerIdMask =
        (world.mem.half currentThreadID).setWidth 32
    · rw [if_pos own] at line
      obtain ⟨s3, ends, mem, calls⟩ := ends_again environment fixed start2 loaded2
      simp only [own, if_true]
      refine ⟨_, line.ends_iff.mpr ends, ?_⟩
      simp [observe, mem, calls]
    · rw [if_neg own] at line
      obtain ⟨s3, waits, start3⟩ := reaches_wait environment apart resumed start2
      simp only [own, if_false]
      exact ⟨s3, line.trans waits, start3⟩

theorem enterCode_iff (fixed : ∀ a, refReg ≠ it a) (apart : refReg ≠ rt 7)
    (resumed : ∀ calls mem, (environment ((.waitInQueue, [s.read refReg]) :: calls) mem).mem.half
      currentThreadID = mem.half currentThreadID) (result : Result) :
    (∃ outcome, (enterCode currentThreadID refReg).Ends environment 0 s outcome ∧
        observe 9 outcome = some result) ↔
      ∃ rounds, lockMutex currentThreadID environment (s.read refReg) rounds
        ⟨s.mem, s.calls⟩ = some result := by
  obtain ⟨s', reaches, start⟩ : ∃ s', (enterCode currentThreadID refReg).Reaches environment 0 s 2
      s' ∧ AtStart currentThreadID (s.read refReg) refReg s' ⟨s.mem, s.calls⟩ :=
    reaches_start environment fixed
  simp only [reaches.ends_iff, lockMutex]
  refine Code.ends_loop_iff (AtStart currentThreadID (s.read refReg) refReg) ?_ ?_ start result
  · intro s world world' start round
    simpa only [round] using round_cases environment fixed apart resumed start
  · intro s world result start round
    simpa only [round] using round_cases environment fixed apart resumed start

end Enter

section Exit

variable {refReg : Reg} (environment : Environment Function)

variable (s : State Reg Function)

theorem reaches_check (fixed : ∀ a, refReg ≠ it a) :
    ∃ s', (exitCode refReg).Reaches environment 0 s
        (if semaphore s.mem (s.read refReg) < 2 then 9 else 3) s' ∧
      s'.mem = s.mem ∧ s'.calls = s.calls ∧ s'.read refReg = s.read refReg ∧
      s'.read (it 1) = (semaphore s.mem (s.read refReg)).setWidth 32 - 2 := by
  set s1 := s.write (it 0) (s.mem.load (s.read refReg + 4) .uh)
  set s2 := s1.alu .subcc (it 1) (it 0) (.imm 2)
  have loaded : s1.read (it 0) = (semaphore s.mem (s.read refReg)).setWidth 32 := by
    simp [s1, State.read_write, it, Reg.var_ne_zero, Memory.load, semaphore]
  have line : (exitCode refReg).Reaches environment 0 s 2 s2 :=
    .trans (.step rfl rfl rfl) (.alu rfl rfl rfl rfl)
  have branch : (exitCode refReg).Reaches environment 2 s2
      (if Cond.cs.holds s2.icc then 9 else 3) s2 := .branch rfl rfl rfl
  have flags : s2.icc = Icc.sub (s1.read (it 0)) 2 false := State.icc_alu _ _ _ _ _
  have free : semaphore s.mem (s.read refReg) < 2 ↔
      (semaphore s.mem (s.read refReg)).setWidth 32 < (2 : Word) := by
    bv_omega
  rw [flags, Cond.holds_cs, loaded] at branch
  refine ⟨s2, ?_, ?_, ?_, ?_, ?_⟩
  · simp only [free]
    simpa using line.trans branch
  · simp [s2, s1]
  · simp [s2, s1]
  · simp [s2, s1, State.read_alu, State.read_write, fixed]
  · rw [State.read_alu, loaded]
    simp [it, Reg.var_ne_zero, Op.result]

theorem reaches_release {value : BitVec 16} (held : 2 ≤ value)
    (loaded : s.read (it 1) = value.setWidth 32 - 2) :
    ∃ s', (exitCode refReg).Reaches environment 3 s (if value - 2 = 1 then 8 else 6) s' ∧
      s'.mem = setSemaphore s.mem (s.read refReg) (value - 2) ∧ s'.calls = s.calls ∧
      s'.read refReg = s.read refReg := by
  set s1 : State Reg Function :=
    { s with mem := s.mem.store (s.read refReg + 4) (s.read (it 1)) .uh }
  set s2 := s1.alu .subcc g0 (it 1) (.imm 1)
  have line : (exitCode refReg).Reaches environment 3 s 5 s2 :=
    .trans (.step rfl rfl rfl) (.alu rfl rfl rfl rfl)
  have branch : (exitCode refReg).Reaches environment 5 s2
      (if Cond.e.holds s2.icc then 8 else 6) s2 := .branch rfl rfl rfl
  have flags : s2.icc = Icc.sub (s.read (it 1)) 1 false := State.icc_alu _ _ _ _ _
  have narrow : (value.setWidth 32 - 2 : Word).setWidth 16 = value - 2 := by
    bv_omega
  have alone : value.setWidth 32 - 2 = (1 : Word) ↔ value - 2 = 1 := by
    bv_omega
  rw [flags, Cond.holds_e, loaded] at branch
  refine ⟨s2, ?_, ?_, rfl, ?_⟩
  · simpa only [alone, decide_eq_true_eq] using line.trans branch
  · simp only [s2, s1, State.mem_alu, Memory.store, loaded, narrow, setSemaphore]
  · simp [s2, State.read_alu]
    rfl

theorem ends_exit (fixed : ∀ a, refReg ≠ it a) :
    ∃ outcome, (exitCode refReg).Ends environment 0 s outcome ∧
      observe 7 outcome =
        some (unlockMutex environment (s.read refReg) ⟨s.mem, s.calls⟩) := by
  obtain ⟨s1, check, mem1, calls1, ref1, loaded1⟩ :=
    reaches_check environment s fixed
  by_cases free : semaphore s.mem (s.read refReg) < 2
  · rw [if_pos free] at check
    refine ⟨_, check.ends_iff.mpr ⟨1, rfl⟩, ?_⟩
    simp only [unlockMutex, if_neg (BitVec.not_le.mpr free)]
    simp [observe, trapException, mem1, calls1]
  · rw [if_neg free] at check
    have held := BitVec.not_lt.mp free
    obtain ⟨s2, release, mem2, calls2, ref2⟩ :=
      reaches_release environment s1 held loaded1
    rw [ref1, mem1] at mem2
    have line := check.trans release
    simp only [unlockMutex, held, if_true, ne_eq, waiters_iff, semaphore_setSemaphore, ite_not]
    by_cases waits : semaphore s.mem (s.read refReg) - 2 = 1
    · rw [if_pos waits] at line ⊢
      refine ⟨_, line.ends_iff.mpr ⟨2, rfl⟩, ?_⟩
      simp [observe, State.called, World.call, mem2, calls2, calls1, ref2, ref1]
    · rw [if_neg waits] at line ⊢
      refine ⟨_, line.ends_iff.mpr ⟨2, rfl⟩, ?_⟩
      simp [observe, mem2, calls2, calls1]

theorem exitCode_iff (fixed : ∀ a, refReg ≠ it a) (result : Result) :
    (∃ outcome, (exitCode refReg).Ends environment 0 s outcome ∧
        observe 7 outcome = some result) ↔
      unlockMutex environment (s.read refReg) ⟨s.mem, s.calls⟩ = result := by
  obtain ⟨outcome, ends, observed⟩ := ends_exit environment s fixed
  constructor
  · rintro ⟨outcome', ends', observed'⟩
    cases ends.unique ends'
    exact Option.some.inj (observed.symm.trans observed')
  · rintro rfl
    exact ⟨outcome, ends, observed⟩

end Exit

theorem observe_shift (base last : Nat) (outcome : Outcome Reg Function) :
    observe (base + last) (outcome.shift base) = observe last outcome := by
  cases outcome with
  | left last' successor s => simp [observe, Outcome.shift]
  | trapped trap s => cases trap <;> rfl

theorem results_iff {emit : Emit Function Unit} {before : List (Instr Reg Function)}
    {part : Code Reg Function} {last : Nat} {environment : Environment Function}
    {s s' : State Reg Function}
    (emitted : emission emit = ⟨(entry before).behind part, before.length + last⟩)
    (reaches : ((entry before).behind part).Reaches environment 0 s before.length s')
    (result : Result) :
    Results emit environment s result ↔
      ∃ outcome, part.Ends environment 0 s' outcome ∧ observe last outcome = some result := by
  have level : (entry before).succs.length = (entry before).instrs.length := by
    simp [entry]
  have behind (outcome : Outcome Reg Function) :
      ((entry before).behind part).Ends environment (before.length + 0) s' outcome ↔
        ∃ outcome', part.Ends environment 0 s' outcome' ∧
          outcome'.shift before.length = outcome :=
    Code.ends_behind_iff level 0 s' outcome
  rw [Results, emitted]
  simp only [reaches.ends_iff]
  constructor
  · rintro ⟨outcome, ends, observed⟩
    obtain ⟨outcome', ends', rfl⟩ := (behind outcome).mp ends
    exact ⟨outcome', ends', (observe_shift _ _ _).symm.trans observed⟩
  · rintro ⟨outcome, ends, observed⟩
    exact ⟨_, (behind _).mpr ⟨outcome, ends, rfl⟩, (observe_shift _ _ _).trans observed⟩

def monitorObject (method : MethodInfo) (s : State Reg Function) : Word :=
  if method.isStatic then method.definingClass else s.read (rl 0)

theorem reaches_monitorPrefix (method : MethodInfo) (a : Int) (part : Code Reg Function)
    (environment : Environment Function) (s : State Reg Function) {nops : List (Instr Reg Function)}
    (front : nops = [.nop] ∨ nops = [.nop, .nop]) :
    let before := nops ++ monitorPrefix method (rt a)
    ∃ s', ((entry before).behind part).Reaches environment 0 s before.length s' ∧
      s'.mem = s.mem ∧ s'.calls = s.calls ∧ s'.read (rt a) = monitorObject method s := by
  cases static : method.isStatic with
  | true =>
      simp only [monitorPrefix, monitorObject, static, if_true]
      refine ⟨(s.write (rt 0) (hi method.definingClass <<< 10)).alu .or (rt a) (rt 0)
        (.imm (lo method.definingClass)), ?_, by simp, by simp, ?_⟩
      · rcases front with rfl | rfl
        · exact ((Code.Reaches.step rfl rfl rfl).trans (.step rfl rfl rfl)).trans
            (.alu rfl rfl rfl rfl)
        · exact (((Code.Reaches.step rfl rfl rfl).trans (.step rfl rfl rfl)).trans
            (.step rfl rfl rfl)).trans (.alu rfl rfl rfl rfl)
      · simp [State.read_alu, State.read_write, rt, Reg.var_ne_zero, Op.result, hi_or_lo]
  | false =>
      simp only [monitorPrefix, monitorObject, static]
      refine ⟨s.alu .add (rt a) (rl 0) (.reg g0), ?_, by simp, by simp, ?_⟩
      · rcases front with rfl | rfl
        · exact (Code.Reaches.step rfl rfl rfl).trans (.alu rfl rfl rfl rfl)
        · exact ((Code.Reaches.step rfl rfl rfl).trans (.step rfl rfl rfl)).trans
            (.alu rfl rfl rfl rfl)
      · simp [State.read_alu, rt, Reg.var_ne_zero, Op.result]

/-- `wait_in_queue` returns when its thread runs again, so `currentThreadID` is as before. -/
def Resumes (currentThreadID : Word) (environment : Environment Function) : Prop :=
  ∀ obj calls mem, (environment ((.waitInQueue, [obj]) :: calls) mem).mem.half currentThreadID =
    mem.half currentThreadID

variable {currentThreadID : Word} {environment : Environment Function}

theorem monitorenter_iff (resumes : Resumes currentThreadID environment) (opsTop : Int)
    (s : State Reg Function) (result : Result) :
    Results (translateMonitorenter currentThreadID opsTop) environment s result ↔
      ∃ rounds, lockMutex currentThreadID environment (s.read (rs opsTop)) rounds
        ⟨s.mem, s.calls⟩ = some result := by
  have reaches : ((entry [.nop]).behind (enterCode currentThreadID (rs opsTop))).Reaches
      environment 0 s 1 s := .step rfl rfl rfl
  rw [@results_iff _ _ _ 9 _ _ _ (emission_monitorenter currentThreadID opsTop) reaches]
  exact enterCode_iff environment (by simp [rs, it]) (by simp [rs, rt]) (resumes _) result

theorem monitorexit_iff (environment : Environment Function) (opsTop : Int)
    (s : State Reg Function) (result : Result) :
    Results (translateMonitorexit opsTop) environment s result ↔
      unlockMutex environment (s.read (rs opsTop)) ⟨s.mem, s.calls⟩ = result := by
  have reaches : ((entry [.nop]).behind (exitCode (rs opsTop))).Reaches environment 0 s 1 s :=
    .step rfl rfl rfl
  rw [@results_iff _ _ _ 7 _ _ _ (emission_monitorexit opsTop) reaches]
  exact exitCode_iff environment s (by simp [rs, it]) result

theorem insertMonitorenter_iff (resumes : Resumes currentThreadID environment)
    (method : MethodInfo) (s : State Reg Function) (result : Result) :
    Results (insertMonitorenterCode currentThreadID method) environment s result ↔
      ∃ rounds, lockMutex currentThreadID environment (monitorObject method s) rounds
        ⟨s.mem, s.calls⟩ = some result := by
  obtain ⟨s', reaches, mem, calls, object⟩ := reaches_monitorPrefix method 8
    (enterCode currentThreadID (rt 8)) environment s (.inl rfl)
  rw [results_iff (emission_insertMonitorenter currentThreadID method) reaches, ← mem, ← calls,
    ← object]
  exact enterCode_iff environment (by simp [rt, it]) (by simp [rt]) (resumes _) result

theorem epilogue_iff (environment : Environment Function) {method : MethodInfo}
    (synchronized : method.isSynchronized) (s : State Reg Function) (result : Result) :
    Results (createFunctionEpilogueCode method) environment s result ↔
      unlockMutex environment (monitorObject method s) ⟨s.mem, s.calls⟩ = result := by
  obtain ⟨s', reaches, mem, calls, object⟩ := reaches_monitorPrefix method 6
    (exitCode (rt 6)) environment s (.inr rfl)
  rw [results_iff (emission_epilogue method synchronized) reaches, ← mem, ← calls, ← object]
  exact exitCode_iff environment s' (by simp [rt, it]) result

/-- The sequences change the lock word, call the slow paths and throw as the runtime does on
the same object. -/
theorem monitorSequences_refine (resumes : Resumes currentThreadID environment)
    (s : State Reg Function) (result : Result) :
    (∀ opsTop, Results (translateMonitorenter currentThreadID opsTop) environment s result ↔
      ∃ rounds, lockMutex currentThreadID environment (s.read (rs opsTop)) rounds
        ⟨s.mem, s.calls⟩ = some result) ∧
    (∀ opsTop, Results (translateMonitorexit opsTop) environment s result ↔
      unlockMutex environment (s.read (rs opsTop)) ⟨s.mem, s.calls⟩ = result) ∧
    (∀ method, Results (insertMonitorenterCode currentThreadID method) environment s result ↔
      ∃ rounds, lockMutex currentThreadID environment (monitorObject method s) rounds
        ⟨s.mem, s.calls⟩ = some result) ∧
    ∀ method, method.isSynchronized →
      (Results (createFunctionEpilogueCode method) environment s result ↔
        unlockMutex environment (monitorObject method s) ⟨s.mem, s.calls⟩ = result) :=
  ⟨fun opsTop => monitorenter_iff resumes opsTop s result,
    fun opsTop => monitorexit_iff environment opsTop s result,
    fun method => insertMonitorenter_iff resumes method s result,
    fun _ synchronized => epilogue_iff environment synchronized s result⟩

def releasing : Environment Function := fun calls mem =>
  ⟨0, ⟨false, false, false, false⟩,
    if calls.head? = some (.waitInQueue, [0x1000]) then mem.storeWord 0x1004 0 else mem, 0⟩

theorem releasing_resumes : Resumes 0x2000 releasing := by
  intro obj calls mem
  simp only [releasing]
  split
  next =>
    rw [Memory.storeWord, Memory.half_storeHalf_of_ne _ _ _ _ (by decide) (by decide) (by decide),
      Memory.half_storeHalf_of_ne _ _ _ _ (by decide) (by decide) (by decide)]
  next => rfl

def contended : State Reg Function where
  regs r := if r = rs 0 then 0x1000 else 0
  doubles _ := 0
  y := 0
  icc := ⟨false, false, false, false⟩
  mem := (Memory.storeWord (fun _ => 0) 0x1004 0x20003).storeHalf 0x2000 7
  calls := []

theorem monitorSequences_refine_contended :
    ∃ world, Results (translateMonitorenter 0x2000 0) releasing contended (.returned world) ∧
      world.calls = [(.waitInQueue, [0x1000])] ∧ lockInfo world.mem 0x1000 = 0x20007 :=
  ⟨_, ((monitorSequences_refine releasing_resumes contended _).1 0).mpr ⟨2, rfl⟩, rfl, by decide⟩

end LaTTe.Sequences
