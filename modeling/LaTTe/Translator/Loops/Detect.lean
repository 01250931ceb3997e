import LaTTe.Translator.FlowGraph

namespace LaTTe.Translator.Loops

/-! Detection of the loops that are optimized.  Instructions are known by their
addresses. -/

inductive InstrCode where
  | add
  /-- `FMOVS` and `FMOVD`. -/
  | fmov
  | load
  | branch
  /-- What `Instr_IsCall` holds of. -/
  | call
  | other
  deriving DecidableEq, Repr

inductive Format where
  | format1
  | format2 (destReg : Reg)
  | format3
  | format4 (destReg srcReg1 srcReg2 : Reg)
  | format5 (destReg srcReg : Reg) (simm13 : Int)
  | format6 (destReg srcReg1 srcReg2 : Reg)
  | format7 (srcReg1 srcReg2 srcReg3 : Reg)
  | format8 (srcReg1 srcReg2 : Reg) (simm13 : Int)
  | format9
  deriving DecidableEq, Repr

/-- `live` has the numbers of the variables that are live before the instruction, if this
is known. -/
structure InstrNode where
  code : InstrCode
  format : Format
  preds : List Nat
  succs : List Nat
  lastUsedRegs : List Reg
  live : Option (List Nat)
  fieldInfo : Option Nat
  deriving DecidableEq, Repr

namespace InstrNode

variable (instr : InstrNode)

/-- `o7` is the register of a return address. -/
def destReg : Option Reg :=
  match instr.format with
  | .format1 => some (.hard 15)
  | .format2 dest => some dest
  | .format4 dest _ _ => some dest
  | .format5 dest _ _ => some dest
  | .format6 dest _ _ => some dest
  | _ => none

def srcRegs : List Reg :=
  match instr.format with
  | .format4 _ src1 src2 => [src1, src2]
  | .format5 _ src _ => [src]
  | .format6 _ src1 src2 => [src1, src2]
  | .format7 src1 src2 src3 => [src1, src2, src3]
  | .format8 src1 src2 _ => [src1, src2]
  | _ => []

/-- There is none where the source has `INVALID_REG`. -/
def srcReg (index : Nat) : Option Reg :=
  instr.srcRegs[index]?

def isICopy : Bool :=
  instr.code = .add &&
    match instr.format with
    | .format6 _ src1 src2 => src1 = g0 || src2 = g0
    | .format5 _ src simm13 => src != g0 && simm13 = 0
    | _ => false

def isFCopy : Bool :=
  instr.code = .fmov

def isLoad : Bool :=
  instr.code = .load

def isStore : Bool :=
  match instr.format with
  | .format7 _ _ _ => true
  | .format8 _ _ _ => true
  | _ => false

/-- `Instr_IsRegionEnd`, that is, `Instr_IsJoin`. -/
def isRegionEnd : Bool :=
  1 < instr.preds.length

def isEligible : Bool :=
  instr.code != .call

end InstrNode

abbrev Graph := Nat → InstrNode

structure LoopInstr where
  instr : Nat
  successorNum : Nat
  basicBlockId : Nat
  deriving DecidableEq, Repr

/-- What `_detect_loop` leaves.  The loop is in `loopInstrArray` in postorder.  The exits
are what was written to `loop_exit_instr_idx_array`, one after the other. -/
structure Found where
  loopInstrArraySize : Nat
  loopInstrArray : List LoopInstr
  loopExitInstrIdxArray : List Nat
  basicBlockNum : Nat
  deriving DecidableEq, Repr

namespace Found

def candidate (numOfInstr : Nat) : Found :=
  ⟨numOfInstr, [], [], 0⟩

/-- `max_loop_exit`, the room in `loop_exit_instr_idx_array`. -/
def maxLoopExit (found : Found) : Nat :=
  found.loopInstrArraySize / 4 + 1

def intern (found : Found) (instr : Nat) : Found :=
  { found with
    loopInstrArray := found.loopInstrArray ++ [⟨instr, 0, found.basicBlockNum⟩] }

def internBranch (found : Found) (instr pathId : Nat) : Found :=
  { found with
    loopInstrArray :=
      found.loopInstrArray ++ [⟨instr, pathId, found.basicBlockNum + 1⟩]
    loopExitInstrIdxArray :=
      found.loopExitInstrIdxArray ++ [found.loopInstrArray.length]
    basicBlockNum := found.basicBlockNum + 1 }

end Found

variable (g : Graph)

/-- `_detect_loop`: there is an outer result if the fuel is enough, and an inner one if
the function returns `true`. -/
def detectFrom (loopEntryInstr : Nat) : Nat → Nat → Nat → Option (Option Found)
  | 0, _, _ => none
  | fuel + 1, instr, numOfInstr =>
      if (g instr).isRegionEnd then
        some (if instr = loopEntryInstr then some (.candidate numOfInstr) else none)
      else
        match (g instr).succs with
        | [succ] =>
            if (g instr).isEligible then do
              match ← detectFrom loopEntryInstr fuel succ (numOfInstr + 1) with
              | some found => some (some (found.intern instr))
              | none => some none
            else
              some none
        | [first, second] => do
            match ← detectFrom loopEntryInstr fuel first (numOfInstr + 1) with
            | some found => some (some (found.internBranch instr 0))
            | none =>
                match ← detectFrom loopEntryInstr fuel second (numOfInstr + 1) with
                | some found => some (some (found.internBranch instr 1))
                | none => some none
        | _ => some none

def maxLoopInstrs : Nat := 512

/-- A loop with what `detect_loop` finds out about its entry. -/
structure Loop where
  found : Found
  entryOuterPredNum : Nat
  entryOuterPredInstr : Nat
  entryOuterPredInstrSuccNum : Nat
  deriving DecidableEq, Repr

def Loop.ofFound (instr : Nat) (found : Found) : Loop :=
  let found := found.intern instr
  let backEdge := (found.loopInstrArray.head?.map LoopInstr.instr)
  let predNum := if (g instr).preds[0]? = backEdge then 1 else 0
  let outer := (g instr).preds.getD predNum instr
  { found := { found with basicBlockNum := found.basicBlockNum + 1 }
    entryOuterPredNum := predNum
    entryOuterPredInstr := outer
    entryOuterPredInstrSuccNum := (g outer).succs.idxOf instr }

def detectLoop (fuel instr : Nat) : Option (Option Loop) :=
  if (g instr).preds.length ≠ 2 ∨ (g instr).succs.length ≠ 1 ∨ (g instr).isEligible = false then
    some none
  else do
    let succ ← (g instr).succs[0]?
    match ← detectFrom g instr fuel succ 1 with
    | some found =>
        if maxLoopInstrs < found.loopInstrArraySize then some none
        else some (some (Loop.ofFound g instr found))
    | none => some none

/-! A loop that was found is a path from its header back to it. -/

variable {g}

/-- The instructions of an array, each of which goes on to the one before it, are a path
from `first` to `last`. -/
inductive PathTo (g : Graph) (last : Nat) : List LoopInstr → Nat → Prop where
  | start : PathTo g last [] last
  | step {done : List LoopInstr} {next : Nat} (path : PathTo g last done next)
      (item : LoopInstr) (onward : (g item.instr).succs[item.successorNum]? = some next) :
      PathTo g last (done ++ [item]) item.instr

def numOfBranches (g : Graph) (items : List LoopInstr) : Nat :=
  items.countP fun item => (g item.instr).succs.length = 2

theorem numOfBranches_append (items : List LoopInstr) (item : LoopInstr) :
    numOfBranches g (items ++ [item]) =
      numOfBranches g items + if (g item.instr).succs.length = 2 then 1 else 0 := by
  rw [numOfBranches, numOfBranches, List.countP_append, List.countP_singleton]
  simp only [decide_eq_true_eq]

structure Detected (g : Graph) (loopEntryInstr instr numOfInstr : Nat) (found : Found) : Prop where
  size : found.loopInstrArraySize = numOfInstr + found.loopInstrArray.length
  path : PathTo g loopEntryInstr found.loopInstrArray instr
  exits : found.loopExitInstrIdxArray.length = numOfBranches g found.loopInstrArray

theorem Detected.intern {loopEntryInstr instr succ numOfInstr : Nat} {found : Found}
    (detected : Detected g loopEntryInstr succ (numOfInstr + 1) found)
    (succs : (g instr).succs = [succ]) :
    Detected g loopEntryInstr instr numOfInstr (found.intern instr) := by
  constructor
  · rw [Found.intern, List.length_append, List.length_singleton, detected.size]
    omega
  · refine detected.path.step ⟨instr, 0, found.basicBlockNum⟩ ?_
    rw [succs, List.getElem?_cons_zero]
  · rw [Found.intern, numOfBranches_append, detected.exits, succs]
    rfl

theorem Detected.internBranch {loopEntryInstr instr succ numOfInstr pathId : Nat} {found : Found}
    (detected : Detected g loopEntryInstr succ (numOfInstr + 1) found)
    (two : (g instr).succs.length = 2) (onward : (g instr).succs[pathId]? = some succ) :
    Detected g loopEntryInstr instr numOfInstr (found.internBranch instr pathId) := by
  constructor
  · rw [Found.internBranch, List.length_append, List.length_singleton, detected.size]
    omega
  · exact detected.path.step ⟨instr, pathId, found.basicBlockNum + 1⟩ onward
  · rw [Found.internBranch, numOfBranches_append, List.length_append, detected.exits,
      List.length_singleton, if_pos two]

theorem detectFrom_detected {loopEntryInstr fuel instr numOfInstr : Nat} {found : Found}
    (detects : detectFrom g loopEntryInstr fuel instr numOfInstr = some (some found)) :
    Detected g loopEntryInstr instr numOfInstr found := by
  induction fuel generalizing instr numOfInstr found with
  | zero => cases detects
  | succ fuel ih =>
      rw [detectFrom] at detects
      split at detects
      · split at detects
        · rename_i same
          cases detects
          subst same
          exact ⟨rfl, .start, rfl⟩
        · cases detects
      · split at detects
        · rename_i succ succs
          split at detects
          · obtain ⟨result, deeper, detects⟩ := Option.bind_eq_some_iff.mp detects
            cases result with
            | none => cases detects
            | some before =>
                cases detects
                exact (ih deeper).intern succs
          · cases detects
        · rename_i first second succs
          have two : (g instr).succs.length = 2 := by rw [succs]; rfl
          obtain ⟨result, deeper, detects⟩ := Option.bind_eq_some_iff.mp detects
          cases result with
          | some before =>
              cases detects
              refine (ih deeper).internBranch two ?_
              rw [succs, List.getElem?_cons_zero]
          | none =>
              obtain ⟨result, deeper, detects⟩ := Option.bind_eq_some_iff.mp detects
              cases result with
              | none => cases detects
              | some before =>
                  cases detects
                  refine (ih deeper).internBranch two ?_
                  rw [succs, List.getElem?_cons_succ, List.getElem?_cons_zero]
        · cases detects

structure Accepted (g : Graph) (instr : Nat) (loop : Loop) : Prop where
  size : loop.found.loopInstrArraySize = loop.found.loopInstrArray.length
  small : loop.found.loopInstrArraySize ≤ maxLoopInstrs
  cycle : PathTo g instr loop.found.loopInstrArray instr
  exits : loop.found.loopExitInstrIdxArray.length = numOfBranches g loop.found.loopInstrArray

theorem detectLoop_accepted {fuel instr : Nat} {loop : Loop}
    (detects : detectLoop g fuel instr = some (some loop)) : Accepted g instr loop := by
  rw [detectLoop] at detects
  split at detects
  · cases detects
  · rename_i eligible
    obtain ⟨succ, onward, detects⟩ := Option.bind_eq_some_iff.mp detects
    obtain ⟨result, deeper, detects⟩ := Option.bind_eq_some_iff.mp detects
    cases result with
    | none => cases detects
    | some found =>
        have one : (g instr).succs.length = 1 := by
          by_contra other
          exact eligible (Or.inr (Or.inl other))
        have succs : (g instr).succs = [succ] := by
          obtain ⟨only, single⟩ := List.length_eq_one_iff.mp one
          rw [single, List.getElem?_cons_zero] at onward
          rw [single, Option.some.inj onward]
        have closed : Detected g instr instr 0 (found.intern instr) :=
          (detectFrom_detected deeper).intern succs
        dsimp only at detects
        split at detects
        · cases detects
        · rename_i fits
          cases detects
          refine ⟨?_, Nat.le_of_not_lt fits, closed.path, closed.exits⟩
          exact closed.size.trans (Nat.zero_add _)

end LaTTe.Translator.Loops
