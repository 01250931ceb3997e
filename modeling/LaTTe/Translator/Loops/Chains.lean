import LaTTe.Translator.Loops.Detect
import Mathlib.Data.Finset.Insert
import Mathlib.Data.Finset.Lattice.Basic
import Mathlib.Logic.Function.Basic

namespace LaTTe.Translator.Loops

/-! The chains from uses to definitions, and the origins of registers. -/

/-- A loop as the analysis reads it, with the number of the variables.  `exitLive` is the
live information of the successor of a branch that is not in the loop. -/
structure Body where
  size : Nat
  instr : Nat → InstrNode
  successorNum : Nat → Nat
  exitLive : Nat → Option (List Nat)
  numOfVars : Nat

def Loop.address (loop : Loop) (i : Nat) : Nat :=
  (loop.found.loopInstrArray.map LoopInstr.instr).getD i 0

def Loop.successorNum (loop : Loop) (i : Nat) : Nat :=
  (loop.found.loopInstrArray.map LoopInstr.successorNum).getD i 0

def Loop.body (g : Graph) (loop : Loop) (numOfVars : Nat) : Body where
  size := loop.found.loopInstrArraySize
  instr := fun i => g (loop.address i)
  successorNum := loop.successorNum
  exitLive := fun i =>
    let exitPath := if loop.successorNum i = 0 then 1 else 0
    (g (loop.address i)).succs[exitPath]?.bind fun succ => (g succ).live
  numOfVars := numOfVars

def downTo {σ : Type} (step : σ → Nat → σ) : Nat → σ → σ
  | 0, state => state
  | i + 1, state => downTo step i (step state i)

abbrev BvMap := Nat → Finset Nat

namespace Body

variable (body : Body)

def clearLastUses (map : BvMap) (i : Nat) : BvMap :=
  (body.instr i).srcRegs.foldl
    (fun map reg =>
      match reg with
      | .var v =>
          if reg ∈ (body.instr i).lastUsedRegs then Function.update map v.number ∅ else map
      | .hard _ => map) map

def setDest (map : BvMap) (i : Nat) : BvMap :=
  match (body.instr i).destReg with
  | some (.var v) => Function.update map v.number {i}
  | _ => map

def firstRound (map : BvMap) (i : Nat) : BvMap :=
  body.setDest (body.clearLastUses map i) i

def outsideUses (map : BvMap) (i : Nat) : Finset Nat :=
  if (body.instr i).code = .branch then
    match body.exitLive i with
    | none => (List.range body.numOfVars).foldl (fun bv j => bv ∪ map j) ∅
    | some live =>
        ((List.range body.numOfVars).filter (· ∈ live)).foldl (fun bv j => bv ∪ map j) ∅
  else
    ∅

def uses (map : BvMap) (i : Nat) : Finset Nat :=
  (body.instr i).srcRegs.foldl
    (fun bv reg =>
      match reg with
      | .var v => bv ∪ map v.number
      | .hard _ => bv) (body.outsideUses map i)

def secondRound (state : (Nat → Finset Nat) × BvMap) (i : Nat) : (Nat → Finset Nat) × BvMap :=
  (Function.update state.1 i (state.1 i ∪ body.uses state.2 i), body.firstRound state.2 i)

def buildVarUdChain : Nat → Finset Nat :=
  (downTo body.secondRound body.size
    (fun _ => ∅, downTo body.firstRound body.size fun _ => ∅)).1

variable (udChain : Nat → Finset Nat)

section

variable (getOrgSrcReg : Nat → Nat → Finset Nat → Option (Option Reg × Finset Nat))
variable (srcReg : Option Reg)

def curOrgReg (i : Nat) (defInstrs : Finset Nat) : Option (Option Reg × Finset Nat) :=
  if (body.instr i).isICopy then getOrgSrcReg i 0 defInstrs
  else if (body.instr i).isFCopy then getOrgSrcReg i 1 defInstrs
  else some (srcReg, insert i defInstrs)

/-- The loop of `get_org_src_reg` over the definitions that reach an instruction.  The
register `org_reg` is not there as long as it is `-2`, and `-1` is no register. -/
def scanDefs : List Nat → Option (Option Reg) → Finset Nat → Option (Option Reg × Finset Nat)
  | [], orgReg, defInstrs => some (orgReg.getD srcReg, defInstrs)
  | i :: rest, orgReg, defInstrs =>
      if (body.instr i).destReg = srcReg then do
        let (cur, defInstrs) ← body.curOrgReg getOrgSrcReg srcReg i defInstrs
        match orgReg with
        | none => scanDefs rest (some cur) defInstrs
        | some org =>
            if org = cur then scanDefs rest orgReg defInstrs else some (none, defInstrs)
      else
        scanDefs rest orgReg defInstrs

end

/-- `get_org_src_reg`, if the fuel is enough for its recursion. -/
def getOrgSrcReg : Nat → Nat → Nat → Finset Nat → Option (Option Reg × Finset Nat)
  | 0, _, _, _ => none
  | fuel + 1, instrIndex, srcNum, defInstrs =>
      body.scanDefs (getOrgSrcReg fuel) ((body.instr instrIndex).srcReg srcNum)
        ((List.range body.size).filter (· ∈ udChain instrIndex)) none defInstrs

end Body

end LaTTe.Translator.Loops
