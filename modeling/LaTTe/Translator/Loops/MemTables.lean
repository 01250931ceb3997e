import LaTTe.Data.OpenAddressing
import LaTTe.Translator.Loops.Chains

namespace LaTTe.Translator.Loops

open LaTTe.Data
open LaTTe.Data.OpenAddressing

/-! The tables of the memory instructions, without the assertions, which are not there in a
build that is not for debugging. -/

/-- A zero in `field1` is the mark of an empty bucket. -/
structure MemExpr where
  field1 : BitVec 32
  field2 : BitVec 32
  field : Option Nat
  valueType : Option VarType
  iteratorIdx : Nat
  cmvar : Nat
  deriving DecidableEq

structure MemInstr where
  instrIdx : Nat
  iteratorIdx : Nat
  addrDefInstr : Finset Nat
  deriving DecidableEq

/-- The arrays `mem_instr_array` and `mem_expr_hash_table_iterator` are what was written to
them, one item after the other; an item of the iterator is an index of the hash table.
Each of the arrays has room for `maxNumMemInstr`. -/
structure MemTables where
  maxNumMemInstr : Nat
  memInstrArray : List MemInstr
  memExprHashTable : Nat → MemExpr
  memExprHashTableIterator : List Nat
  memInstrArrayIndex : Nat → Option Nat
  numberOfStores : Nat
  numberOfLoads : Nat

namespace MemTables

/-- The start of `init_mem_instr_array`. -/
def init (loopInstrArraySize : Nat) : MemTables where
  maxNumMemInstr := loopInstrArraySize / 2 + 1
  memInstrArray := []
  memExprHashTable := fun _ => ⟨0, 0, none, none, 0, 0⟩
  memExprHashTableIterator := []
  memInstrArrayIndex := fun _ => none
  numberOfStores := 0
  numberOfLoads := 0

variable (tables : MemTables)

def memExprHashVal (field1 field2 : BitVec 32) : Nat :=
  (field1 + field2).toNat % tables.maxNumMemInstr

/-- The loop of `mem_expr_hash_find` and of `mem_expr_hash_enter`. -/
def probe (field1 field2 : BitVec 32) : Nat → Nat → Option Nat
  | 0, _ => none
  | fuel + 1, hashVal =>
      let bucket := tables.memExprHashTable hashVal
      if bucket.field1 = 0 ∨ (bucket.field1 = field1 ∧ bucket.field2 = field2) then
        some hashVal
      else
        probe field1 field2 fuel ((hashVal + 1) % tables.maxNumMemInstr)

/-- The inner result is not there where the source has `-1`. -/
def memExprHashFind (fuel : Nat) (field1 field2 : BitVec 32) : Option (Option Nat) := do
  let hashVal ← tables.probe field1 field2 fuel (tables.memExprHashVal field1 field2)
  some (if (tables.memExprHashTable hashVal).field1 = 0 then none else some hashVal)

/-- `mem_expr_hash_enter`, with the index in the iterator. -/
def memExprHashEnter (fuel : Nat) (field1 field2 : BitVec 32) (field : Option Nat)
    (valueType : Option VarType) : Option (MemTables × Nat) := do
  let hashVal ← tables.probe field1 field2 fuel (tables.memExprHashVal field1 field2)
  let bucket := tables.memExprHashTable hashVal
  if bucket.field1 = 0 then
    let iteratorIdx := tables.memExprHashTableIterator.length
    some ({ tables with
      memExprHashTable := Function.update tables.memExprHashTable hashVal
        ⟨field1, field2, field, valueType, iteratorIdx, 0⟩
      memExprHashTableIterator := tables.memExprHashTableIterator ++ [hashVal] }, iteratorIdx)
  else
    let valueType := if bucket.valueType = valueType then valueType else none
    some ({ tables with
      memExprHashTable := Function.update tables.memExprHashTable hashVal
        { bucket with valueType := valueType } }, bucket.iteratorIdx)

/-- The arguments of `enter_mem_instr` for a load or a store. -/
structure Access where
  field1 : BitVec 32
  field2 : BitVec 32
  field : Option Nat
  valueType : Option VarType
  defInstrs : Finset Nat
  isStore : Bool
  deriving DecidableEq

def enterMemInstr (fuel : Nat) (instrIdx : Nat) (access : Access) : Option MemTables := do
  let (tables, iteratorIdx) ←
    tables.memExprHashEnter fuel access.field1 access.field2 access.field access.valueType
  some { tables with
    memInstrArrayIndex :=
      Function.update tables.memInstrArrayIndex instrIdx (some tables.memInstrArray.length)
    memInstrArray :=
      tables.memInstrArray ++ [⟨instrIdx, iteratorIdx, access.defInstrs⟩]
    numberOfStores :=
      if access.isStore then tables.numberOfStores + 1 else tables.numberOfStores
    numberOfLoads :=
      if access.isStore then tables.numberOfLoads else tables.numberOfLoads + 1 }

end MemTables

namespace Body

open MemTables

variable (body : Body)

section

variable (code : Reg → BitVec 32)
variable (getOrg : Nat → Nat → Finset Nat → Option (Option Reg × Finset Nat))

/-- `Var_GetType`; a register of the machine has none. -/
def typeOf : Option Reg → Option VarType
  | some (.var v) => some v.type
  | _ => none

def registerAccess (i : Nat) (valueType : Option VarType) (isStore : Bool) :
    Option (Option Access) := do
  let (field1, defInstrs) ← getOrg i 0 ∅
  let (field2, defInstrs) ← getOrg i 1 defInstrs
  match field1, field2 with
  | some reg1, some reg2 =>
      some (some ⟨code reg1, code reg2, (body.instr i).fieldInfo, valueType, defInstrs, isStore⟩)
  | _, _ => some none

def immediateAccess (i : Nat) (simm13 : Int) (valueType : Option VarType) (isStore : Bool) :
    Option (Option Access) := do
  let (field1, defInstrs) ← getOrg i 0 ∅
  match field1 with
  | some reg =>
      some (some ⟨code reg, BitVec.ofInt 32 simm13, (body.instr i).fieldInfo, valueType, defInstrs,
        isStore⟩)
  | none => some none

/-- What the body of the loop of `init_mem_instr_array` enters for an instruction, if
anything.  There is no outer result where `get_org_src_reg` does not return. -/
def access (i : Nat) : Option (Option Access) :=
  let instr := body.instr i
  if instr.isLoad then
    match instr.format with
    | .format4 _ _ _ => body.registerAccess code getOrg i (typeOf instr.destReg) false
    | .format5 _ _ simm13 =>
        body.immediateAccess code getOrg i simm13 (typeOf instr.destReg) false
    | _ => some none
  else if instr.isStore then
    match instr.format with
    | .format7 _ _ _ => body.registerAccess code getOrg i (typeOf (instr.srcReg 2)) true
    | .format8 _ _ simm13 =>
        body.immediateAccess code getOrg i simm13 (typeOf (instr.srcReg 1)) true
    | _ => some none
  else
    some none

/-- The body of the loop of `init_mem_instr_array`. -/
def enterInstr (fuel : Nat) (tables : MemTables) (i : Nat) : Option MemTables := do
  match ← body.access code getOrg i with
  | some access => tables.enterMemInstr fuel i access
  | none => some tables

/-- The first turns of the loop of `init_mem_instr_array`. -/
def initMemInstrArray (fuel turns : Nat) : Option MemTables :=
  (List.range turns).foldlM (body.enterInstr code getOrg fuel) (.init body.size)

def accesses : Nat → Option (List Access)
  | 0 => some []
  | i + 1 => do
      let before ← accesses i
      match ← body.access code getOrg i with
      | some access => some (before ++ [access])
      | none => some before

end

end Body

end LaTTe.Translator.Loops
