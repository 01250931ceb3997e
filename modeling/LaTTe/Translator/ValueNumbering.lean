import LaTTe.Translator.FlowGraph
import Mathlib.Logic.Function.Basic
import Mathlib.Algebra.Group.Nat.Defs

namespace LaTTe.Translator.Vn

open LaTTe.Translator (Reg Var g0)

/-! Value numbering of a region, and the elimination of bound checks. -/

inductive Opcode where
  | add | sub | and | or | xor | xnor | smul | umul | sdiv | udiv | sll | srl | sra
  | ldsb | ldsh | ldub | lduh | ld | ldd | ldf | lddf
  | addcc | subcc | addx | subx | rdy | wry | save | restore
  | sethi | fmovs | fmovd | tleu
  /-- Sets the condition codes in another way. -/
  | setcc (code : Nat)
  /-- Reads the condition codes, such as a conditional move. -/
  | conditional (code : Nat)
  | other (code : Nat)
  deriving DecidableEq, Repr

namespace Opcode

def isLoad : Opcode → Bool
  | ldsb | ldsh | ldub | lduh | ld | ldd | ldf | lddf => true
  | _ => false

/-- `is_alu_op`. -/
def isAlu : Opcode → Bool
  | add | sub | or | and | smul | umul | sdiv | udiv | sll | sra | srl | xor | xnor => true
  | _ => false

def isRemovable : Opcode → Bool
  | sdiv | udiv | rdy | wry | subcc | addcc | addx | subx | restore | save => false
  | _ => true

def ofBits (bits : BitVec 32) : Option Opcode :=
  if bits = 0xC0480000#32 then some ldsb
  else if bits = 0xC0500000#32 then some ldsh
  else if bits = 0xC0080000#32 then some ldub
  else if bits = 0xC0100000#32 then some lduh
  else if bits = 0xC0000000#32 then some ld
  else if bits = 0xC0180000#32 then some ldd
  else if bits = 0xC1000000#32 then some ldf
  else if bits = 0xC1180000#32 then some lddf
  else none

end Opcode

inductive Imm where
  | resolved (value : BitVec 32)
  | unresolved (bits value : BitVec 32)
  deriving DecidableEq, Repr

namespace Imm

def value : Imm → BitVec 32
  | resolved value => value
  | unresolved _ value => value

def bits : Imm → BitVec 32
  | resolved value => value
  | unresolved bits _ => bits

/-- What `sethi` makes of its immediate. -/
def high : Imm → Imm
  | resolved value => resolved (value <<< 10)
  | unresolved bits value => unresolved (bits <<< 10) (value <<< 10)

end Imm

inductive Format where
  | format2 (destReg : Reg) (imm22 : Imm)
  | format4 (destReg srcReg1 srcReg2 : Reg)
  | format5 (destReg srcReg : Reg) (simm13 : Imm)
  | format6 (destReg srcReg1 srcReg2 : Reg)
  | format7 (srcReg1 srcReg2 srcReg3 : Reg)
  | format8 (srcReg1 srcReg2 : Reg) (simm13 : Imm)
  | call (rets : List Var)
  | none
  deriving DecidableEq, Repr

structure Instr where
  code : Opcode
  format : Format
  deriving DecidableEq, Repr

namespace Instr

variable (instr : Instr)

def destReg : Option Reg :=
  match instr.format with
  | .format2 dest _ => some dest
  | .format4 dest _ _ => some dest
  | .format5 dest _ _ => some dest
  | .format6 dest _ _ => some dest
  | _ => none

def secondSource : Option Reg :=
  match instr.format with
  | .format4 _ _ src2 => some src2
  | .format6 _ _ src2 => some src2
  | .format7 _ src2 _ => some src2
  | .format8 _ src2 _ => some src2
  | _ => none

def isStore : Bool :=
  match instr.format with
  | .format7 _ _ _ => true
  | .format8 _ _ _ => true
  | _ => false

def isCall : Bool :=
  match instr.format with
  | .call _ => true
  | _ => false

def isICopy : Bool :=
  instr.code = .add &&
    match instr.format with
    | .format6 _ src1 src2 => src1 = g0 || src2 = g0
    | .format5 _ src simm13 => src != g0 && simm13.bits = 0
    | _ => false

def isFCopy : Bool :=
  instr.code = .fmovs || instr.code = .fmovd

end Instr

/-! The right-hand sides and their tables. -/

inductive RhsField where
  | const (value : BitVec 32)
  | undef (number : Nat)
  | binary (code : Opcode) (op1 op2 : Nat)
  deriving DecidableEq, Repr

/-- `count` is the redundancy count.  It is raised for a right-hand side that is found
again, which an unknown one never is. -/
structure Rhs where
  field : RhsField
  vn : Nat
  source : Option Instr
  count : Nat
  deriving DecidableEq, Repr

namespace Rhs

/-- `rhs_is_equal`; two unknown values are told apart by `rhs_get_count`. -/
def isEqual (r1 r2 : Rhs) : Bool :=
  match r1.field, r2.field with
  | .const value1, .const value2 => value1 = value2
  | .undef _, .undef _ => r1.count = r2.count
  | .binary code1 a1 b1, .binary code2 a2 b2 => code1 = code2 && a1 = a2 && b1 = b2
  | _, _ => false

/-- What `rhs_get_code` returns, if it is the opcode of a load. -/
def loadCode (r : Rhs) : Option Opcode :=
  match r.field with
  | .const value => Opcode.ofBits value
  | .undef number => Opcode.ofBits (BitVec.ofNat 32 number)
  | .binary code _ _ => if code.isLoad then some code else none

def isMemoryLoad (r : Rhs) : Bool :=
  r.loadCode.isSome

/-- `is_memory_dependent` on a store to the sum of two numbers. -/
def isMemoryDependent (vn1 vn2 : Nat) (r : Rhs) : Bool :=
  r.isMemoryLoad &&
    match r.field with
    | .binary _ op1 op2 => vn1 = op1 && vn2 = op2
    | _ => false

end Rhs

/-- The data of a traversal: the table of the right-hand sides that are available, the
map from variables to value numbers, by variable number, the map from value numbers to
right-hand sides, and the comparisons known to have been checked, the last one first. -/
structure Numbering where
  table : List Rhs
  map : Nat → Option Nat
  rhsOf : Nat → Option Rhs
  currentVn : Nat
  currentUndef : Nat
  prevLeft : Option Rhs
  prevRight : Option Rhs
  stack : List (Rhs × Rhs)

namespace Numbering

/-- `CFG_get_var_number`, which leaves a register of the machine as it is. -/
def varNumber : Reg → Nat
  | .hard number => number
  | .var v => v.number

variable (st : Numbering)

def insert (reg : Reg) (vn : Nat) : Numbering :=
  { st with map := Function.update st.map (varNumber reg) (some vn) }

def erase (reg : Reg) : Numbering :=
  { st with map := Function.update st.map (varNumber reg) none }

theorem insert_map_self (v : Var) (vn : Nat) :
    (st.insert (.var v) vn).map v.number = some vn :=
  Function.update_self _ _ _

theorem insert_map_other {v : Var} {k : Nat} (apart : k ≠ v.number) (vn : Nat) :
    (st.insert (.var v) vn).map k = st.map k :=
  Function.update_of_ne apart _ _

theorem erase_map_self (v : Var) : (st.erase (.var v)).map v.number = none :=
  Function.update_self _ _ _

theorem erase_map_other {v : Var} {k : Nat} (apart : k ≠ v.number) :
    (st.erase (.var v)).map k = st.map k :=
  Function.update_of_ne apart _ _

def checks : List (Rhs × Rhs) × Option Rhs × Option Rhs :=
  (st.stack, st.prevLeft, st.prevRight)

/-- `register_rhs` of a new right-hand side. -/
def register (field : RhsField) (source : Option Instr) : Nat × Numbering :=
  let r : Rhs := ⟨field, st.currentVn, source, 0⟩
  (st.currentVn,
    { st with
      table := r :: st.table
      rhsOf := Function.update st.rhsOf st.currentVn (some r)
      currentVn := st.currentVn + 1 })

/-- `create_vn_from_undef`. -/
def createUndef : Nat × Numbering :=
  { st with currentUndef := st.currentUndef + 1 }.register (.undef st.currentUndef) none

/-- `rhs_hash_find`. -/
def find (field : RhsField) : Option Rhs :=
  st.table.find? fun r => Rhs.isEqual ⟨field, 0, none, 0⟩ r

def fromConst (value : BitVec 32) : Nat × Numbering :=
  match st.find (.const value) with
  | some r => (r.vn, st)
  | none => st.register (.const value) none

def fromVar (reg : Reg) : Nat × Numbering :=
  match reg with
  | .var v =>
      match st.map v.number with
      | some vn => (vn, st)
      | none =>
          let (vn, st) := st.createUndef
          (vn, st.insert reg vn)
  | .hard _ =>
      if reg = g0 then st.fromConst 0
      else
        let (vn, st) := st.createUndef
        (vn, st.insert reg vn)

def fromImm (imm : Imm) : Nat × Numbering :=
  match imm with
  | .resolved value => st.fromConst value
  | .unresolved _ _ => st.createUndef

def fromAddress (reg : Reg) : Nat × Numbering :=
  match reg with
  | .var _ => st.fromVar reg
  | .hard _ => st.createUndef

/-- The number of the second operand of a load, which may be `g0`. -/
def fromOffset (reg : Reg) : Nat × Numbering :=
  if reg = g0 then st.fromConst 0 else st.fromAddress reg

def rhsOfConst (vn : Nat) : Option (BitVec 32) :=
  match st.rhsOf vn with
  | some r =>
      match r.field with
      | .const value => some value
      | _ => none
  | none => none

def fromBinary (instr : Instr) (vn1 vn2 : Nat) : Nat × Numbering :=
  let st := { st with currentVn := st.currentVn + 1 }
  match st.find (.binary instr.code vn1 vn2) with
  | some r => (r.vn, st)
  | none => st.register (.binary instr.code vn1 vn2) (some instr)

end Numbering

/-- The arithmetic of `is_constant`. -/
def foldConstant (code : Opcode) (x y : BitVec 32) : Option (BitVec 32) :=
  match code with
  | .add => some (x + y)
  | .sub => some (x - y)
  | .and => some (x &&& y)
  | .or => some (x ||| y)
  | .xor => some (x ^^^ y)
  | .xnor => some (~~~(x ^^^ y))
  | .smul => some (x * y)
  | .umul => some (x * y)
  | .sll => some (x <<< (y.toNat % 32))
  | .srl => some (x >>> (y.toNat % 32))
  | .sra => some (x.sshiftRight (y.toNat % 32))
  | _ => none

/-- `is_constant`.  An unresolved immediate counts as zero. -/
def isConstant (instr : Instr) (st : Numbering) : Option (BitVec 32) × Numbering :=
  if instr.code.isAlu then
    match instr.format with
    | .format6 _ src1 src2 =>
        let (vn1, st) := st.fromVar src1
        match st.rhsOfConst vn1 with
        | none => (none, st)
        | some x =>
            let (vn2, st) := st.fromVar src2
            match st.rhsOfConst vn2 with
            | none => (none, st)
            | some y => (foldConstant instr.code x y, st)
    | .format5 _ src simm13 =>
        let (vn1, st) := st.fromVar src
        match st.rhsOfConst vn1 with
        | none => (none, st)
        | some x =>
            match simm13 with
            | .resolved y => (foldConstant instr.code x y, st)
            | .unresolved _ _ => (foldConstant instr.code x 0, st)
    | _ => (none, st)
  else (none, st)

def canChangeRegToImm (instr : Instr) : Bool :=
  match instr.format with
  | .format6 _ _ _ => instr.code = .subcc || instr.code.isAlu || instr.code = .addcc
  | _ => false

def fitsImmediate (value : BitVec 32) : Bool :=
  value.toInt < 4096 && -4096 < value.toInt

def withImmediate (code : Opcode) (dest src : Reg) (value : BitVec 32) : Instr :=
  if code = .smul then
    if value = 0 then ⟨.sethi, .format2 dest (.resolved 0)⟩
    else if value = 1 then ⟨.add, .format5 dest src (.resolved 0)⟩
    else
      match (List.range 12).find? fun i => value = BitVec.ofNat 32 (2 ^ (i + 1)) with
      | some i => ⟨.sll, .format5 dest src (.resolved (BitVec.ofNat 32 (i + 1)))⟩
      | none => ⟨.smul, .format5 dest src (.resolved value)⟩
  else if code = .sdiv then
    if value = 1 then ⟨.add, .format5 dest src (.resolved 0)⟩
    else if value = 2 then ⟨.sra, .format5 dest (.hard 1) (.resolved 1)⟩
    else ⟨.sdiv, .format5 dest src (.resolved value)⟩
  else ⟨code, .format5 dest src (.resolved value)⟩

def constantPropagation (instr : Instr) (st : Numbering) : Instr × Numbering :=
  if instr.isICopy || instr.isFCopy then (instr, st)
  else if canChangeRegToImm instr || instr.isStore || instr.code.isLoad then
    match instr.format with
    | .format4 dest src1 src2 | .format6 dest src1 src2 =>
        if src2 = g0 then (instr, st)
        else
          let (_, st) := st.fromVar src1
          let (vn2, st) := st.fromVar src2
          match st.rhsOfConst vn2 with
          | some value =>
              if fitsImmediate value then (withImmediate instr.code dest src1 value, st)
              else (instr, st)
          | none => (instr, st)
    | .format7 src1 src2 src3 =>
        if src2 = g0 then (instr, st)
        else
          let (_, st) := st.fromVar src1
          let (vn2, st) := st.fromVar src2
          match st.rhsOfConst vn2 with
          | some value =>
              if fitsImmediate value then (⟨instr.code, .format8 src1 src3 (.resolved value)⟩, st)
              else (instr, st)
          | none => (instr, st)
    | _ => (instr, st)
  else (instr, st)

/-- A call keeps only the loads whose second operand is `g0`. -/
def survivesCall (r : Rhs) : Bool :=
  !r.isMemoryLoad || (r.source.bind Instr.secondSource) = some g0

def Numbering.store (st : Numbering) (vn1 vn2 : Nat) : Numbering :=
  { st with
    table := st.table.filter fun r => !r.isMemoryDependent vn1 vn2
    currentVn := st.currentVn + 1 }

def assignVn (instr : Instr) (st : Numbering) : Numbering :=
  if !instr.code.isRemovable then
    match instr.destReg with
    | some (.var dst) => st.erase (.var dst)
    | _ => st
  else
    match instr.format with
    | .call rets =>
        rets.foldl (fun st ret => st.erase (.var ret))
          { st with table := st.table.filter survivesCall }
    | .format7 src1 src2 _ =>
        let (vn1, st) := st.fromAddress src1
        let (vn2, st) := st.fromAddress src2
        st.store vn1 vn2
    | .format8 src1 _ simm13 =>
        let (vn1, st) := st.fromAddress src1
        let (vn2, st) := st.fromImm simm13
        st.store vn1 vn2
    | .format2 dest imm22 =>
        match dest with
        | .var _ =>
            if instr.code = .sethi then
              let (vn, st) := st.fromImm imm22.high
              st.insert dest vn
            else st
        | .hard _ => st
    | .format4 dest src1 src2 =>
        match dest with
        | .var _ =>
            if instr.code.isLoad then
              let (vn1, st) := st.fromAddress src1
              let (vn2, st) := st.fromOffset src2
              let (vn, st) := st.fromBinary instr vn1 vn2
              st.insert dest vn
            else st
        | .hard _ => st
    | .format5 dest src simm13 =>
        match dest with
        | .var _ =>
            if instr.isICopy then
              let (vn, st) := st.fromVar src
              st.insert dest vn
            else if instr.code.isLoad then
              let (vn1, st) := st.fromAddress src
              let (vn2, st) := st.fromImm simm13
              let (vn, st) := st.fromBinary instr vn1 vn2
              st.insert dest vn
            else
              match isConstant instr st with
              | (some value, st) =>
                  let (vn, st) := st.fromConst value
                  st.insert dest vn
              | (none, st) =>
                  let (vn1, st) := st.fromVar src
                  let (vn2, st) := st.fromImm simm13
                  let (vn, st) := st.fromBinary instr vn1 vn2
                  st.insert dest vn
        | .hard _ => st
    | .format6 dest src1 src2 =>
        match dest with
        | .var _ =>
            if instr.isICopy then
              let (vn, st) := st.fromVar src1
              st.insert dest vn
            else if instr.isFCopy then
              let (vn, st) := st.fromVar src2
              st.insert dest vn
            else
              match isConstant instr st with
              | (some value, st) =>
                  let (vn, st) := st.fromConst value
                  st.insert dest vn
              | (none, st) =>
                  let (vn1, st) := st.fromVar src1
                  let (vn2, st) := st.fromVar src2
                  let (vn, st) := st.fromBinary instr vn1 vn2
                  st.insert dest vn
        | .hard _ => st
    | .none => st

/-! Bound checks. -/

/-- `is_already_boundary_checked`. -/
def isAlreadyChecked (st : Numbering) : Bool :=
  match st.prevLeft, st.prevRight with
  | some left, some right =>
      st.stack.any fun cond => right.isEqual cond.2 && left.isEqual cond.1
  | _, _ => false

/-- `eliminate_branch`, and whether it has removed the instruction. -/
def eliminateBranch (instr : Instr) (st : Numbering) : Bool × Numbering :=
  match instr.code, instr.format with
  | .subcc, .format6 _ src1 src2 =>
      let (vn1, st) := st.fromVar src1
      let st := { st with prevLeft := st.rhsOf vn1 }
      let (vn2, st) := st.fromVar src2
      (false, { st with prevRight := st.rhsOf vn2 })
  | .subcc, .format5 _ src simm13 =>
      let (vn1, st) := st.fromVar src
      let st := { st with prevLeft := st.rhsOf vn1 }
      let (vn2, st) := st.fromImm simm13
      (false, { st with prevRight := st.rhsOf vn2 })
  | .tleu, _ =>
      if isAlreadyChecked st then (true, st)
      else
        match st.prevLeft, st.prevRight with
        | some left, some right => (false, { st with stack := (left, right) :: st.stack })
        | _, _ => (false, st)
  | _, _ => (false, st)

/-! The traversal of a region. -/

/-- The instructions of a region; `exit` stands for the end of the region. -/
inductive Region where
  | exit
  | node (instr : Instr) (targets : List Region)

inductive Visited where
  | exit
  | node (instr : Instr) (before : Numbering) (removed : Bool) (targets : List Visited)

def visit (instr : Instr) (st : Numbering) : Bool × Numbering :=
  let (instr, st) := constantPropagation instr st
  eliminateBranch instr (assignVn instr st)

def Numbering.enter (st : Numbering) (targets : Nat) : Numbering :=
  if targets ≤ 2 then st else { st with table := [] }

def Numbering.leave (st after : Numbering) (targets : Nat) : Numbering :=
  if targets = 1 then after
  else
    { after with
      table := st.table
      map := st.map
      currentVn := st.currentVn
      stack := after.stack.drop (after.stack.length - st.stack.length) }

def maxVn : Nat := 10000

def maxBranchDepth : Nat := 10000

/-- The assertions of `vn_new` and of `cond_stack_push`: what stands behind `vn_to_rhs_array`,
`vn_to_vn_var_array` and the stack has not been written to. -/
def Numbering.Within (st : Numbering) : Prop :=
  st.currentVn ≤ maxVn ∧ st.stack.length ≤ maxBranchDepth

instance (st : Numbering) : Decidable st.Within := inferInstanceAs (Decidable (_ ∧ _))

mutual

/-- `traverse_region`; `none` if it writes behind the end of an array. -/
def traverse : Region → Numbering → Option (Visited × Numbering)
  | .exit, st => some (.exit, st)
  | .node instr targets, st =>
      let (removed, next) := visit instr st
      if next.Within then
        match traverseTargets targets.length targets next with
        | some (visited, last) => some (.node instr st removed visited, last)
        | none => none
      else none

def traverseTargets (count : Nat) :
    List Region → Numbering → Option (List Visited × Numbering)
  | [], st => some ([], st)
  | target :: rest, st =>
      match traverse target (st.enter count) with
      | some (visited, after) =>
          match traverseTargets count rest (st.leave after count) with
          | some (others, last) => some (visited :: others, last)
          | none => none
      | none => none

end

/-- The state that `VN_optimize_region` starts with, up to the comparison that the last
region has left behind. -/
def Numbering.initial (prevLeft prevRight : Option Rhs) : Numbering where
  table := []
  map := fun _ => none
  rhsOf := fun _ => none
  currentVn := 1
  currentUndef := 1
  prevLeft := prevLeft
  prevRight := prevRight
  stack := []

end LaTTe.Translator.Vn
