import LaTTe.Translator.Immediates
import LaTTe.Sequences.ConstantPropagation

namespace LaTTe.Translator.Immediates

open LaTTe.Sparc
open LaTTe.Sequences (hi lo)

/-! What is put in immediate fields. -/

def codes : List Word :=
  [codeLDSB, codeLDSH, codeLDUB, codeLDUH, codeLD, codeLDF, codeLDDF, codeLDFSR, codeJMPL, codeSAVE,
    opCode .or]

def stores : List Word := [codeSTB, codeSTH, codeST, codeSTF, codeSTDF]

def loadCode : Width → Word
  | .ub => codeLDUB
  | .sb => codeLDSB
  | .uh => codeLDUH
  | .sh => codeLDSH
  | .w => codeLD

def storeCode : Width → Word
  | .ub | .sb => codeSTB
  | .uh | .sh => codeSTH
  | .w => codeST

def FitsOp (op : Op) (constant : Int) : Prop :=
  if op.shifts then Count 5 constant else Fits 13 constant

instance (op : Op) (constant : Int) : Decidable (FitsOp op constant) :=
  inferInstanceAs (Decidable (if op.shifts then Count 5 constant else Fits 13 constant))

abbrev Made := Int × InstrNode

/-- `iinc` by a constant of one byte, or behind a `wide` of two. -/
def translateIinc {width : Nat} (destReg srcReg : Reg) (constant : BitVec width) : List Made :=
  [(constant.toInt, format5 (opCode .add) destReg srcReg constant.toInt)]

/-- `RegAlloc_get_spill_offset` of the spill register with that number behind `Reg_number`. -/
def getSpillOffset (spill : Nat) : Int := -12 - 4 * spill

def generateSpill (type : VarType) (fromReg : Reg) (spill : Nat) : List Made :=
  let offset := getSpillOffset spill
  match type, fromReg with
  | .int, _ | .ref, _ | .long, _ | .ivoid, _ => [(offset, format8 codeST fromReg .fp offset)]
  | .float, .float _ => [(offset, format8 codeSTF fromReg .fp offset)]
  | .float, _ => [(offset, format8 codeST fromReg .fp offset)]
  | .double, _ => [(offset - 4, format8 codeSTDF fromReg .fp (offset - 4))]
  | .cc, _ | .fvoid, _ => []

/-- `RegAlloc_generate_promotion`; a double is at an even place. -/
def generatePromotion (type : VarType) (spill : Nat) (toReg : Reg) : List Made :=
  let offset := getSpillOffset spill
  match type, toReg with
  | .int, _ | .ref, _ | .long, _ | .ivoid, _ => [(offset, format5 codeLD toReg .fp offset)]
  | .float, .float _ => [(offset, format5 codeLDF toReg .fp offset)]
  | .float, _ => [(offset, format5 codeLD toReg .fp offset)]
  | .double, _ => [(offset - 4, format5 codeLDDF toReg .fp (offset - 4))]
  | .cc, _ | .fvoid, _ => []

/-- `CodeGen_calculate_stack_size`, in 32 bits. -/
def calculateStackSize (maxNumOfArgs spillRegNum : Nat) : Word :=
  (96 + 4 * (BitVec.ofNat 32 maxNumOfArgs - 6) + 4 * BitVec.ofNat 32 spillRegNum + 16) &&& -8

/-- `CodeGen_set_stack_size`: a large frame is taken from `g1`. -/
def setStackSize (stackSize : Word) : List Made :=
  if 0x1000 ≤ stackSize.toInt then
    [((hi (-stackSize)).toInt, ⟨codeSETHI, .format2 .g1 (hi (-stackSize))⟩),
      ((lo (-stackSize)).toInt, format5 (opCode .or) .g1 .g1 (lo (-stackSize)).toInt)]
  else [(-stackSize.toInt, format5 codeSAVE .sp .sp (-stackSize.toInt))]

inductive FieldType where
  | reference | int | boolean | byte | short | char | float | long | double
  deriving DecidableEq, Repr

/-- `getfield`; a long is read in two halves. -/
def translateGetfield (type : FieldType) (objectReg destReg destReg2 : Reg) (foffset : Int) :
    List Made :=
  match type with
  | .reference | .int => [(foffset, format5 codeLD destReg objectReg foffset)]
  | .boolean | .byte => [(foffset, format5 codeLDSB destReg objectReg foffset)]
  | .short => [(foffset, format5 codeLDSH destReg objectReg foffset)]
  | .char => [(foffset, format5 codeLDUH destReg objectReg foffset)]
  | .float => [(foffset, format5 codeLDF destReg objectReg foffset)]
  | .long =>
      [(foffset, format5 codeLD destReg objectReg foffset),
        (foffset + 4, format5 codeLD destReg2 objectReg (foffset + 4))]
  | .double => [(foffset, format5 codeLDDF destReg objectReg foffset)]

def translatePutfield (type : FieldType) (objectReg srcReg srcReg2 : Reg) (foffset : Int) :
    List Made :=
  match type with
  | .reference | .int => [(foffset, format8 codeST srcReg objectReg foffset)]
  | .boolean | .byte => [(foffset, format8 codeSTB srcReg objectReg foffset)]
  | .short | .char => [(foffset, format8 codeSTH srcReg objectReg foffset)]
  | .float => [(foffset, format8 codeSTF srcReg objectReg foffset)]
  | .long =>
      [(foffset, format8 codeST srcReg objectReg foffset),
        (foffset + 4, format8 codeST srcReg2 objectReg (foffset + 4))]
  | .double => [(foffset, format8 codeSTDF srcReg objectReg foffset)]

/-- `create_format5_instruction` with a constant. -/
def loadImmediate (code : Word) (destReg srcReg : Reg) (constant : Int) : List Made :=
  [(constant, format5 code destReg srcReg constant)]

def storeImmediate (code : Word) (srcReg2 srcReg1 : Reg) (constant : Int) : List Made :=
  [(constant, format8 code srcReg2 srcReg1 constant)]

/-- `sethi` and an instruction with the lower ten bits of an address or a constant. -/
def twoParts (temp : BitVec 5) (val : Word) (low : InstrNode) : List Made :=
  [((hi val).toInt, ⟨codeSETHI, .format2 (.integer temp) (hi val)⟩), ((lo val).toInt, low)]

/-- `sipush`, the bounds of `tableswitch`, the keys and their number of `lookupswitch`. -/
def guardedConstant (op : Op) (temp : BitVec 5) (destReg srcReg : Reg) (val : Int) : List Made :=
  if val ≤ 0xfff ∧ -0x1000 ≤ val then loadImmediate (opCode op) destReg srcReg val
  else
    let word := BitVec.ofInt 32 val
    twoParts temp word (format5 (opCode .or) destReg (.integer temp) (lo word).toInt)

/-- The pointer to a method in the dispatch table, or its offset for the inline cache. -/
def translateDispatch (inlineCache : Bool) (destReg srcReg : Reg) (methIdx : Int) : List Made :=
  loadImmediate (if inlineCache then opCode .add else codeLD) destReg srcReg (4 * methIdx)

/-- The bit of a class in the row of another: `checkcast` and `instanceof`. -/
def translateInclusionTest (isInstanceof : Bool) (rowReg byteReg bitReg destReg : Reg) (pos : Nat) :
    List Made :=
  let byte := loadImmediate codeLDUB byteReg rowReg (pos >>> 3 : Nat)
  let mask : Int := (1 <<< (7 - (pos &&& 7)) : Nat)
  if isInstanceof then
    byte ++ loadImmediate (opCode .and) bitReg byteReg mask ++
      loadImmediate (opCode .srl) destReg bitReg (7 - (pos &&& 7) : Nat)
  else byte ++ loadImmediate (opCode .andcc) (.integer 0) byteReg mask

def translateNew (destReg : Reg) (objsize : Nat) : List Made :=
  if objsize < 1024 then loadImmediate (opCode .add) destReg (.integer 0) objsize else []

def translateMultianewarray (destReg : Reg) (dim : BitVec 8) : List Made :=
  loadImmediate (opCode .add) destReg (.integer 0) dim.toNat

def getStackOffsetOfArg (i : Nat) : Int := 68 + i * 4

/-- What `constant_propagation` leaves in an immediate field, in the registers allocated. -/
def immediates {F : Type} (alloc allocF : Sequences.Reg → BitVec 5) :
    Instr Sequences.Reg F → List Made
  | .alu op destReg srcReg (.imm value) =>
      loadImmediate (opCode op) (.integer (alloc destReg)) (.integer (alloc srcReg)) value.toInt
  | .sethi destReg imm22 =>
      [(imm22.toInt, ⟨codeSETHI, .format2 (.integer (alloc destReg)) imm22⟩)]
  | .load width destReg baseReg (.imm value) =>
      loadImmediate (loadCode width) (.integer (alloc destReg)) (.integer (alloc baseReg))
        value.toInt
  | .loadDouble destReg baseReg (.imm value) =>
      loadImmediate codeLDDF (.float (allocF destReg)) (.integer (alloc baseReg)) value.toInt
  | .store width srcReg baseReg (.imm value) =>
      storeImmediate (storeCode width) (.integer (alloc srcReg)) (.integer (alloc baseReg))
        value.toInt
  | .storeDouble srcReg baseReg (.imm value) =>
      storeImmediate codeSTDF (.float (allocF srcReg)) (.integer (alloc baseReg)) value.toInt
  | _ => []

def propagate {F : Type} (alloc allocF : Sequences.Reg → BitVec 5)
    (known : Sequences.Reg → Option Word) (predecessor : Instr Sequences.Reg F)
    (node : Sequences.InstrNode F) : List Made :=
  match Sequences.constantOperand known node.instr with
  | some (orgReg, value) =>
      (Sequences.propagateConstant predecessor orgReg value node).nodes.flatMap fun node =>
        immediates alloc allocF node.instr
  | none => []

/-- A call that `CodeGen_resolve_unknown_values` resolves: the shift has no sign. -/
def resolveCall (data instr : Word) : List Made :=
  let disp30 := (data - instr) >>> 2
  [(disp30.toNat, ⟨codeCALL, .format1 disp30⟩)]

def trapCode (cond : BitVec 4) : Word :=
  0x2#32 <<< 30 ||| cond.setWidth 32 <<< 25 ||| 0x3a#32 <<< 19 ||| 0x1#32 <<< 13

def trapNumbers : List Nat := [0x10, 0x11, 0x12, 0x14]

def appendTrap (cond : BitVec 4) (intrpNum : Nat) : List Made :=
  [(intrpNum, ⟨trapCode cond, .format9 (BitVec.ofNat 16 intrpNum)⟩)]

/-- A branch that `CodeGen_resolve_unknown_values` resolves, between native offsets in words. -/
def resolveBranch (code : Word) (target instr : Nat) : List Made :=
  let disp22 : Int := target - instr
  [(disp22, ⟨code, .format3 (BitVec.ofInt 32 disp22)⟩)]

/-- What puts a constant in an immediate field; `alu`, `longShift`, `load` and `store` are the
fixed sequences. -/
inductive Producer where
  | iinc (destReg srcReg : Reg) (constant : BitVec 8)
  | wideIinc (destReg srcReg : Reg) (constant : BitVec 16)
  | spill (type : VarType) (fromReg : Reg) (number : Nat)
  | promotion (type : VarType) (number : Nat) (toReg : Reg)
  | frame (maxNumOfArgs spillRegNum : Nat)
  | getfield (type : FieldType) (objectReg destReg destReg2 : Reg) (foffset : Int)
  | putfield (type : FieldType) (objectReg srcReg srcReg2 : Reg) (foffset : Int)
  | branch (op : BranchOp) (target instr : Nat)
  | alu (op : Op) (destReg srcReg : Reg) (constant : Int)
  | longShift (op : Op) (shifts : op.shifts = true) (destReg srcReg : Reg) (count : Int)
  | load (code : Word) (mem : code ∈ codes) (destReg srcReg : Reg) (constant : Int)
  | store (code : Word) (mem : code ∈ stores) (srcReg2 srcReg1 : Reg) (constant : Int)
  | guarded (op : Op) (unshifted : op.shifts = false) (temp : BitVec 5) (destReg srcReg : Reg)
      (val : Int)
  | address (code : Word) (mem : code ∈ codes) (temp : BitVec 5) (destReg : Reg) (val : Word)
  | addressStore (code : Word) (mem : code ∈ stores) (temp : BitVec 5) (srcReg : Reg) (val : Word)
  | dispatch (inlineCache : Bool) (destReg srcReg : Reg) (methIdx : Int)
  | inclusionTest (isInstanceof : Bool) (rowReg byteReg bitReg destReg : Reg) (pos : Nat)
  | new (destReg : Reg) (objsize : Nat)
  | multianewarray (destReg : Reg) (dim : BitVec 8)
  | argument (code : Word) (mem : code ∈ stores) (reg : Reg) (i : Nat)
  | parameter (code : Word) (mem : code ∈ codes) (reg : Reg) (i : Nat)
  | propagation (alloc allocF : Sequences.Reg → BitVec 5) (known : Sequences.Reg → Option Word)
      (predecessor : Instr Sequences.Reg Unit) (node : Sequences.InstrNode Unit)
  | call (data instr : Word)
  | trap (cond : BitVec 4) (intrpNum : Nat) (mem : intrpNum ∈ trapNumbers)

namespace Producer

def made : Producer → List Made
  | iinc destReg srcReg constant => translateIinc destReg srcReg constant
  | wideIinc destReg srcReg constant => translateIinc destReg srcReg constant
  | spill type fromReg number => generateSpill type fromReg number
  | promotion type number toReg => generatePromotion type number toReg
  | frame maxNumOfArgs spillRegNum => setStackSize (calculateStackSize maxNumOfArgs spillRegNum)
  | getfield type objectReg destReg destReg2 foffset =>
      translateGetfield type objectReg destReg destReg2 foffset
  | putfield type objectReg srcReg srcReg2 foffset =>
      translatePutfield type objectReg srcReg srcReg2 foffset
  | branch op target instr => resolveBranch op.code target instr
  | alu op destReg srcReg constant => loadImmediate (opCode op) destReg srcReg constant
  | longShift op _ destReg srcReg count => loadImmediate (longCode op) destReg srcReg count
  | load code _ destReg srcReg constant => loadImmediate code destReg srcReg constant
  | store code _ srcReg2 srcReg1 constant => storeImmediate code srcReg2 srcReg1 constant
  | guarded op _ temp destReg srcReg val => guardedConstant op temp destReg srcReg val
  | address code _ temp destReg val =>
      twoParts temp val (format5 code destReg (.integer temp) (lo val).toInt)
  | addressStore code _ temp srcReg val =>
      twoParts temp val (format8 code srcReg (.integer temp) (lo val).toInt)
  | dispatch inlineCache destReg srcReg methIdx =>
      translateDispatch inlineCache destReg srcReg methIdx
  | inclusionTest isInstanceof rowReg byteReg bitReg destReg pos =>
      translateInclusionTest isInstanceof rowReg byteReg bitReg destReg pos
  | new destReg objsize => translateNew destReg objsize
  | multianewarray destReg dim => translateMultianewarray destReg dim
  | argument code _ reg i => storeImmediate code reg .sp (getStackOffsetOfArg i)
  | parameter code _ reg i => loadImmediate code reg .fp (getStackOffsetOfArg i)
  | propagation alloc allocF known predecessor node => propagate alloc allocF known predecessor node
  | call data instr => resolveCall data instr
  | trap cond intrpNum _ => appendTrap cond intrpNum

def registers : Producer → List Reg
  | iinc destReg srcReg _ | wideIinc destReg srcReg _ => [destReg, srcReg]
  | spill _ reg _ | promotion _ _ reg => [reg]
  | getfield _ objectReg reg reg2 _ | putfield _ objectReg reg reg2 _ => [objectReg, reg, reg2]
  | alu _ destReg srcReg _ | longShift _ _ destReg srcReg _ | load _ _ destReg srcReg _
  | guarded _ _ _ destReg srcReg _ | dispatch _ destReg srcReg _ => [destReg, srcReg]
  | store _ _ srcReg2 srcReg1 _ => [srcReg2, srcReg1]
  | address _ _ _ reg _ | addressStore _ _ _ reg _ | new reg _ | multianewarray reg _
  | argument _ _ reg _ | parameter _ _ reg _ => [reg]
  | inclusionTest _ rowReg byteReg bitReg destReg _ => [rowReg, byteReg, bitReg, destReg]
  | frame _ _ | branch _ _ _ | propagation _ _ _ _ _ | call _ _ | trap _ _ _ => []

/-- The constants fit in their fields, as far as the node has `seen` them. -/
def InRange (seen : Nat → Int → Int) : Producer → Prop
  | wideIinc _ _ constant => Fits 13 (seen 16 constant.toInt)
  | spill type _ number | promotion type number _ =>
      match type with
      | .cc | .fvoid => True
      | .double => Fits 13 (seen 16 (getSpillOffset number - 4))
      | _ => Fits 13 (seen 16 (getSpillOffset number))
  | frame maxNumOfArgs spillRegNum =>
      let stackSize := (calculateStackSize maxNumOfArgs spillRegNum).toInt
      0x1000 ≤ stackSize ∨ Fits 13 (seen 16 (-stackSize))
  | getfield type _ _ _ foffset | putfield type _ _ _ foffset =>
      Fits 13 (seen 16 foffset) ∧ (type = .long → Fits 13 (seen 16 (foffset + 4)))
  | branch _ target instr => Fits 19 (seen 32 (target - instr))
  | alu op _ _ constant => FitsOp op (seen 16 constant)
  | longShift _ _ _ _ count => Count 6 (seen 16 count)
  | load _ _ _ _ constant | store _ _ _ _ constant => Fits 13 (seen 16 constant)
  | dispatch _ _ _ methIdx => Fits 13 (seen 16 (4 * methIdx))
  | inclusionTest _ _ _ _ _ pos => Fits 13 (seen 16 (pos >>> 3 : Nat))
  | argument _ _ _ i | parameter _ _ _ i => Fits 13 (seen 16 (getStackOffsetOfArg i))
  | propagation _ _ known _ node =>
      match Sequences.constantOperand known node.instr, node.instr with
      | some (_, value), .alu op _ _ _ => op.shifts = true → Count 5 (seen 16 value.toInt)
      | _, _ => True
  | call data instr => Fits 30 (seen 32 ((data - instr) >>> 2).toNat)
  | iinc _ _ _ | guarded _ _ _ _ _ _ | address _ _ _ _ _ | addressStore _ _ _ _ _ | new _ _
  | multianewarray _ _ | trap _ _ _ => True

end Producer

/-! The instructions of a producer. -/

section Producers

theorem arithmetic_codes {code : Word} (mem : code ∈ codes) : Arithmetic code := by
  have all : codes.all (fun code => decide (Arithmetic code)) = true := by decide
  exact of_decide_eq_true (List.all_eq_true.mp all code mem)

theorem loadCode_mem (width : Width) : loadCode width ∈ codes := by
  cases width <;> decide

theorem storeCode_mem (width : Width) : storeCode width ∈ stores := by
  cases width <;> decide

theorem arithmetic_stores {code : Word} (mem : code ∈ stores) :
    Arithmetic (0xc1fc0000#32 &&& code) := by
  have all : stores.all (fun code => decide (Arithmetic (0xc1fc0000#32 &&& code))) = true := by
    decide
  exact of_decide_eq_true (List.all_eq_true.mp all code mem)

theorem arithmetic_opCode {op : Op} (unshifted : op.shifts = false) : Arithmetic (opCode op) := by
  cases op with
  | sll | srl | sra => contradiction
  | _ => decide

theorem shift_opCode {op : Op} (shifts : op.shifts = true) :
    Shift (opCode op) ∧ field 0 13 (opCode op) = 0 := by
  cases op with
  | sll | srl | sra => decide
  | _ => contradiction

theorem shift_longCode {op : Op} (shifts : op.shifts = true) :
    Shift (longCode op) ∧ field 0 13 (longCode op) = 0x1000 := by
  cases op with
  | sll | srl | sra => decide
  | _ => contradiction

theorem branch_code (op : BranchOp) : Branch op.code := by
  have all : ∀ (cond : BitVec 4) (isFloat annul useXcc predictTaken : Bool),
      Branch (BranchOp.mk cond isFloat annul useXcc predictTaken).code := by
    decide +kernel
  exact all op.cond op.isFloat op.annul op.useXcc op.predictTaken

structure Reads (Wanted : Int → InstrNode → Prop) (seen : Nat → Int → Int) : Prop where
  field : ∀ {width : Nat} {read : Int → Int} {InField : Int → Prop} {constant : Int}
    {instr : InstrNode}, Reading width read InField →
      instr.held = some (truncated width constant) →
        decode instr.assemble = some (read constant) →
          (Wanted constant instr ↔ InField (seen width constant))
  whole : ∀ {constant : Int} {instr : InstrNode}, instr.held = some constant →
    decode instr.assemble = some constant → Wanted constant instr
  fits : ∀ {width : Nat} {read : Int → Int} {InField : Int → Prop} {constant : Int},
    Reading width read InField → InField constant → InField (seen width constant)

theorem reads_keeps : Reads Keeps fun _ constant => constant where
  field reading held decoded := keeps_iff reading held decoded
  whole := And.intro
  fits _ inside := inside

theorem reads_held : Reads (fun _ instr => decode instr.assemble = instr.held) truncated where
  field reading held decoded := decode_eq_held_iff reading held decoded
  whole held decoded := decoded.trans held.symm
  fits reading inside := (reading.held _ inside).symm ▸ inside

theorem reading_simm13 : Reading 16 (truncated 13) (Fits 13) :=
  reading_signed (by decide) (by decide)

variable {Wanted : Int → InstrNode → Prop} {seen : Nat → Int → Int}

theorem Reads.arithmetic (reads : Reads Wanted seen) {code : Word} (arithmetic : Arithmetic code)
    {destReg srcReg : Reg} (dest : ∀ number, destReg ≠ .cc number)
    (src : ∀ number, srcReg ≠ .cc number) (constant : Int) :
    Wanted constant (format5 code destReg srcReg constant) ↔ Fits 13 (seen 16 constant) :=
  reads.field reading_simm13 rfl (decode_format5 arithmetic dest src constant)

theorem Reads.load (reads : Reads Wanted seen) {code : Word} (mem : code ∈ codes)
    {destReg srcReg : Reg} (dest : ∀ number, destReg ≠ .cc number)
    (src : ∀ number, srcReg ≠ .cc number) (constant : Int) :
    Wanted constant (format5 code destReg srcReg constant) ↔ Fits 13 (seen 16 constant) :=
  reads.arithmetic (arithmetic_codes mem) dest src constant

theorem Reads.alu (reads : Reads Wanted seen) (op : Op)
    {destReg srcReg : Reg} (dest : ∀ number, destReg ≠ .cc number)
    (src : ∀ number, srcReg ≠ .cc number) (constant : Int) :
    Wanted constant (format5 (opCode op) destReg srcReg constant) ↔
      FitsOp op (seen 16 constant) := by
  cases shifts : op.shifts with
  | true =>
      obtain ⟨shift, plain⟩ := shift_opCode shifts
      have decoded := decode_shift shift dest src constant
      have low : 0 ||| BitVec.ofInt 13 constant = BitVec.ofInt 13 constant := BitVec.zero_or
      rw [plain, low] at decoded
      rw [FitsOp, if_pos shifts]
      exact reads.field reading_count rfl decoded
  | false =>
      rw [FitsOp, if_neg (Bool.not_eq_true _ ▸ shifts)]
      exact reads.arithmetic (arithmetic_opCode shifts) dest src constant

theorem Reads.fitsOp (reads : Reads Wanted seen) {op : Op} {constant : Int}
    (fits : FitsOp op constant) : FitsOp op (seen 16 constant) := by
  unfold FitsOp at fits ⊢
  split at fits
  next shifts =>
    rw [if_pos shifts]
    exact reads.fits reading_count fits
  next unshifted =>
    rw [if_neg unshifted]
    exact reads.fits reading_simm13 fits

theorem Reads.longShift (reads : Reads Wanted seen) {op : Op} (shifts : op.shifts = true)
    {destReg srcReg : Reg} (dest : ∀ number, destReg ≠ .cc number)
    (src : ∀ number, srcReg ≠ .cc number) (count : Int) :
    Wanted count (format5 (longCode op) destReg srcReg count) ↔ Count 6 (seen 16 count) := by
  obtain ⟨shift, long⟩ := shift_longCode shifts
  have decoded := decode_shift shift dest src count
  rw [long] at decoded
  exact reads.field reading_longCount rfl decoded

theorem Reads.store (reads : Reads Wanted seen) {code : Word} (mem : code ∈ stores)
    {srcReg2 srcReg1 : Reg} (src2 : ∀ number, srcReg2 ≠ .cc number)
    (src1 : ∀ number, srcReg1 ≠ .cc number) (constant : Int) :
    Wanted constant (format8 code srcReg2 srcReg1 constant) ↔ Fits 13 (seen 16 constant) :=
  reads.field reading_simm13 rfl (decode_format8 (arithmetic_stores mem) src2 src1 constant)

theorem hi_lt (val : Word) : (hi val).toNat < 2 ^ 22 := by
  have bound := val.isLt
  rw [hi, BitVec.toNat_ushiftRight, Nat.shiftRight_eq_div_pow]
  omega

theorem fits_lo (val : Word) : Fits 13 (lo val).toInt := by
  have low : (lo val).toNat < 2 ^ 10 := by
    have mask : (0x3ff : Word).toNat = 2 ^ 10 - 1 := rfl
    rw [lo, BitVec.toNat_and, mask, Nat.and_two_pow_sub_one_eq_mod]
    exact Nat.mod_lt _ (by decide)
  have unsigned : (lo val).toInt = (lo val).toNat := BitVec.toInt_eq_toNat_of_lt (by omega)
  rw [unsigned, Fits]
  omega

theorem Reads.sethi (reads : Reads Wanted seen) (number : BitVec 5) (val : Word) :
    Wanted (hi val).toInt ⟨codeSETHI, .format2 (.integer number) (hi val)⟩ :=
  reads.whole rfl (decode_sethi number (hi_lt val))

theorem Reads.twoParts (reads : Reads Wanted seen) {temp : BitVec 5} {val : Word} {low : InstrNode}
    (wanted : Wanted (lo val).toInt low ↔ Fits 13 (seen 16 (lo val).toInt)) :
    ∀ made ∈ twoParts temp val low, Wanted made.1 made.2 := by
  rw [Immediates.twoParts, List.forall_mem_cons, List.forall_mem_singleton]
  exact ⟨reads.sethi temp val, wanted.mpr (reads.fits reading_simm13 (fits_lo val))⟩

theorem Reads.frame (reads : Reads Wanted seen) (stackSize : Word) :
    (∀ made ∈ setStackSize stackSize, Wanted made.1 made.2) ↔
      0x1000 ≤ stackSize.toInt ∨ Fits 13 (seen 16 (-stackSize.toInt)) := by
  rw [setStackSize]
  by_cases large : 0x1000 ≤ stackSize.toInt
  · rw [if_pos large]
    refine iff_of_true (reads.twoParts ?_) (.inl large)
    exact reads.load (by decide) (Reg.integer_ne_cc 1) (Reg.integer_ne_cc 1) _
  · rw [if_neg large, List.forall_mem_singleton, or_iff_right large]
    exact reads.load (by decide) (Reg.integer_ne_cc 14) (Reg.integer_ne_cc 14) _

theorem Reads.one (offset : Int) {instr : InstrNode}
    (wanted : Wanted offset instr ↔ Fits 13 (seen 16 offset)) :
    (∀ made ∈ [(offset, instr)], Wanted made.1 made.2) ↔ Fits 13 (seen 16 offset) := by
  rw [List.forall_mem_singleton]
  exact wanted

theorem Reads.spill (reads : Reads Wanted seen) {type : VarType} {reg : Reg}
    (machine : ∀ number, reg ≠ .cc number) (spill : Nat) :
    (∀ made ∈ generateSpill type reg spill, Wanted made.1 made.2) ↔
      (Producer.spill type reg spill).InRange seen := by
  have fp : ∀ number, Reg.fp ≠ .cc number := nofun
  cases type with
  | int | ref | long | ivoid => exact Reads.one _ (reads.store (by decide) machine fp _)
  | float =>
    cases reg with
    | float => exact Reads.one _ (reads.store (by decide) machine fp _)
    | integer | cc => exact Reads.one _ (reads.store (by decide) machine fp _)
  | double => exact Reads.one _ (reads.store (by decide) machine fp _)
  | cc | fvoid => exact iff_of_true nofun trivial

theorem Reads.promotion (reads : Reads Wanted seen) {type : VarType} {reg : Reg}
    (machine : ∀ number, reg ≠ .cc number) (spill : Nat) :
    (∀ made ∈ generatePromotion type spill reg, Wanted made.1 made.2) ↔
      (Producer.promotion type spill reg).InRange seen := by
  have fp : ∀ number, Reg.fp ≠ .cc number := nofun
  cases type with
  | int | ref | long | ivoid => exact Reads.one _ (reads.load (by decide) machine fp _)
  | float =>
    cases reg with
    | float => exact Reads.one _ (reads.load (by decide) machine fp _)
    | integer | cc => exact Reads.one _ (reads.load (by decide) machine fp _)
  | double => exact Reads.one _ (reads.load (by decide) machine fp _)
  | cc | fvoid => exact iff_of_true nofun trivial

theorem Reads.access {type : FieldType} (short : type ≠ .long) {foffset : Int} {instr : InstrNode}
    (wanted : Wanted foffset instr ↔ Fits 13 (seen 16 foffset)) :
    (∀ made ∈ [(foffset, instr)], Wanted made.1 made.2) ↔
      Fits 13 (seen 16 foffset) ∧ (type = .long → Fits 13 (seen 16 (foffset + 4))) := by
  rw [Reads.one foffset wanted]
  exact (and_iff_left fun long => absurd long short).symm

theorem Reads.halves {foffset : Int} {first second : InstrNode}
    (wanted : Wanted foffset first ↔ Fits 13 (seen 16 foffset))
    (wanted2 : Wanted (foffset + 4) second ↔ Fits 13 (seen 16 (foffset + 4))) :
    (∀ made ∈ [(foffset, first), (foffset + 4, second)], Wanted made.1 made.2) ↔
      Fits 13 (seen 16 foffset) ∧
        (FieldType.long = .long → Fits 13 (seen 16 (foffset + 4))) := by
  rw [List.forall_mem_cons, List.forall_mem_singleton, wanted, wanted2]
  exact and_congr_right fun _ => ⟨fun fits _ => fits, fun fits => fits rfl⟩

theorem Reads.getfield (reads : Reads Wanted seen) (type : FieldType)
    {objectReg destReg destReg2 : Reg} (object : ∀ number, objectReg ≠ .cc number)
    (dest : ∀ number, destReg ≠ .cc number) (dest2 : ∀ number, destReg2 ≠ .cc number)
    (foffset : Int) :
    (∀ made ∈ translateGetfield type objectReg destReg destReg2 foffset,
      Wanted made.1 made.2) ↔
      (Producer.getfield type objectReg destReg destReg2 foffset).InRange seen := by
  have access : type ≠ .long → ∀ {instr : InstrNode},
      (Wanted foffset instr ↔ Fits 13 (seen 16 foffset)) →
        ((∀ made ∈ [(foffset, instr)], Wanted made.1 made.2) ↔
          (Producer.getfield type objectReg destReg destReg2 foffset).InRange seen) :=
    fun short _ wanted => Reads.access short wanted
  cases type with
  | long =>
    exact Reads.halves (reads.load (by decide) dest object foffset)
      (reads.load (by decide) dest2 object (foffset + 4))
  | reference | int | boolean | byte | short | char | float | double =>
    exact access (by decide) (reads.load (by decide) dest object foffset)

theorem Reads.putfield (reads : Reads Wanted seen) (type : FieldType)
    {objectReg srcReg srcReg2 : Reg} (object : ∀ number, objectReg ≠ .cc number)
    (src : ∀ number, srcReg ≠ .cc number) (src2 : ∀ number, srcReg2 ≠ .cc number)
    (foffset : Int) :
    (∀ made ∈ translatePutfield type objectReg srcReg srcReg2 foffset, Wanted made.1 made.2) ↔
      (Producer.putfield type objectReg srcReg srcReg2 foffset).InRange seen := by
  have access : type ≠ .long → ∀ {instr : InstrNode},
      (Wanted foffset instr ↔ Fits 13 (seen 16 foffset)) →
        ((∀ made ∈ [(foffset, instr)], Wanted made.1 made.2) ↔
          (Producer.putfield type objectReg srcReg srcReg2 foffset).InRange seen) :=
    fun short _ wanted => Reads.access short wanted
  cases type with
  | long =>
    exact Reads.halves (reads.store (by decide) src object foffset)
      (reads.store (by decide) src2 object (foffset + 4))
  | reference | int | boolean | byte | short | char | float | double =>
    exact access (by decide) (reads.store (by decide) src object foffset)

theorem Reads.branch (reads : Reads Wanted seen) (op : BranchOp) (target instr : Nat) :
    (∀ made ∈ resolveBranch op.code target instr, Wanted made.1 made.2) ↔
      (Producer.branch op target instr).InRange seen := by
  rw [resolveBranch, List.forall_mem_singleton]
  exact reads.field (reading_signed (by decide) (by decide)) rfl
    (decode_branch (branch_code op) _)

theorem Reads.call (reads : Reads Wanted seen) (data instr : Word) :
    (∀ made ∈ resolveCall data instr, Wanted made.1 made.2) ↔
      (Producer.call data instr).InRange seen := by
  have positive : ((data - instr) >>> 2).toInt = ((data - instr) >>> 2).toNat := by
    refine BitVec.toInt_eq_toNat_of_lt ?_
    rw [BitVec.toNat_ushiftRight, Nat.shiftRight_eq_div_pow]
    omega
  have held : some ((data - instr) >>> 2).toInt =
      some (truncated 32 ((data - instr) >>> 2).toNat) := by
    rw [← positive, truncated, BitVec.ofInt_toInt]
  rw [resolveCall, List.forall_mem_singleton]
  exact reads.field (reading_signed (by decide) (by decide)) held (decode_call _)

theorem Reads.trap (reads : Reads Wanted seen) (cond : BitVec 4) {intrpNum : Nat}
    (mem : intrpNum ∈ trapNumbers) : ∀ made ∈ appendTrap cond intrpNum, Wanted made.1 made.2 := by
  have all : ∀ cond : BitVec 4, ∀ intrpNum ∈ trapNumbers,
      decode (InstrNode.mk (trapCode cond) (.format9 (BitVec.ofNat 16 intrpNum))).assemble =
        some (intrpNum : Int) := by
    decide +kernel
  have held : ∀ intrpNum ∈ trapNumbers, (BitVec.ofNat 16 intrpNum).toInt = intrpNum := by decide
  rw [appendTrap, List.forall_mem_singleton]
  exact reads.whole (congrArg some (held intrpNum mem)) (all cond intrpNum mem)

theorem fits_byte (constant : BitVec 8) : Fits 13 constant.toInt := by
  have least := BitVec.le_toInt constant
  have most := @BitVec.toInt_lt 8 constant
  rw [Fits]
  omega

theorem Reads.inclusionTest (reads : Reads Wanted seen) (isInstanceof : Bool)
    {rowReg byteReg bitReg destReg : Reg} (row : ∀ number, rowReg ≠ .cc number)
    (byte : ∀ number, byteReg ≠ .cc number) (bit : ∀ number, bitReg ≠ .cc number)
    (dest : ∀ number, destReg ≠ .cc number) (pos : Nat) :
    (∀ made ∈ translateInclusionTest isInstanceof rowReg byteReg bitReg destReg pos,
      Wanted made.1 made.2) ↔ Fits 13 (seen 16 (pos >>> 3 : Nat)) := by
  have small : pos &&& 7 ≤ 7 := Nat.and_le_right
  have position : ∀ n ≤ 7,
      Fits 13 ((1 <<< (7 - n) : Nat) : Int) ∧ Count 5 ((7 - n : Nat) : Int) := by
    decide
  obtain ⟨mask, count⟩ := position _ small
  have zero : ∀ number, Reg.integer 0 ≠ .cc number := nofun
  have loaded := reads.load (by decide : codeLDUB ∈ codes) byte row (pos >>> 3 : Nat)
  have masked (op : Op) (unshifted : op.shifts = false) {dest : Reg}
      (machine : ∀ number, dest ≠ .cc number) :=
    (reads.arithmetic (arithmetic_opCode unshifted) machine byte _).mpr
      (reads.fits reading_simm13 mask)
  have counted := (reads.alu .srl dest bit ((7 - (pos &&& 7) : Nat) : Int)).mpr
    (reads.fits reading_count count)
  unfold translateInclusionTest
  cases isInstanceof with
  | true =>
      simp only [loadImmediate, if_true, List.forall_mem_append, List.forall_mem_singleton]
      exact ⟨fun wanted => loaded.mp wanted.1.1,
        fun fits => ⟨⟨loaded.mpr fits, masked .and rfl bit⟩, counted⟩⟩
  | false =>
      simp only [loadImmediate, Bool.false_eq_true, if_false, List.forall_mem_append,
        List.forall_mem_singleton]
      exact ⟨fun wanted => loaded.mp wanted.1,
        fun fits => ⟨loaded.mpr fits, masked .andcc rfl zero⟩⟩

/-! The immediate fields that constant propagation fills. -/

section Propagation

variable {F : Type} {alloc allocF : Sequences.Reg → BitVec 5}
variable {known : Sequences.Reg → Option Word} {predecessor : Instr Sequences.Reg F}
variable {lastUsedRegs : Sequences.LastUsedRegs} {orgReg : Sequences.Reg} {value : Word}

theorem made_orgMarker :
    ((Sequences.orgMarker lastUsedRegs orgReg).flatMap fun node : Sequences.InstrNode F =>
      immediates alloc allocF node.instr) = [] := by
  unfold Sequences.orgMarker
  split
  · rfl
  · rfl

theorem made_withImmediate (inserted : List (Sequences.InstrNode F))
    (instr : Instr Sequences.Reg F) :
    ((Sequences.withImmediate predecessor inserted instr lastUsedRegs orgReg).nodes.flatMap
        fun node => immediates alloc allocF node.instr) =
      (inserted.flatMap fun node => immediates alloc allocF node.instr) ++
        immediates alloc allocF instr := by
  rw [Sequences.Propagated.nodes, Sequences.withImmediate, List.flatMap_append,
    List.flatMap_append, made_orgMarker, List.append_nil, List.flatMap_singleton]

theorem fits_immediate (found : Sequences.immediate known orgReg = some value) :
    Fits 13 value.toInt := by
  have inside := (Option.filter_eq_some_iff.mp found).2
  have range : value.toInt < 4096 ∧ -4096 < value.toInt := by simpa using inside
  rw [Fits]
  omega

theorem Reads.propagated (reads : Reads Wanted seen) {op : Op} (dest src : BitVec 5)
    (fits : FitsOp op value.toInt) :
    ∀ made ∈ loadImmediate (opCode op) (.integer dest) (.integer src) value.toInt,
      Wanted made.1 made.2 := by
  rw [loadImmediate, List.forall_mem_singleton]
  exact (reads.alu op (Reg.integer_ne_cc _) (Reg.integer_ne_cc _) _).mpr (reads.fitsOp fits)

theorem Reads.propagateSmul (reads : Reads Wanted seen) (destReg srcReg : Sequences.Reg)
    (fits : Fits 13 value.toInt) :
    ∀ made ∈ (Sequences.propagateSmul predecessor destReg srcReg orgReg value
        lastUsedRegs).nodes.flatMap fun node => immediates alloc allocF node.instr,
      Wanted made.1 made.2 := by
  unfold Sequences.propagateSmul
  split
  · have marker : ((if lastUsedRegs.first = srcReg then [Sequences.lastUse orgReg] else
        []).flatMap fun node : Sequences.InstrNode F => immediates alloc allocF node.instr) =
        [] := by
      split
      · rfl
      · rfl
    rw [made_withImmediate, marker, List.nil_append, immediates, List.forall_mem_singleton]
    exact reads.whole rfl (decode_sethi _ (by decide))
  · split
    · rw [made_withImmediate]
      exact reads.propagated _ _ (by decide)
    · split
      next i found =>
        have count : Count 5 (BitVec.ofNat 32 i).toInt := by
          have small := (Sequences.powerOfTwo_eq found).2
          have unsigned : (BitVec.ofNat 32 i).toNat = i := Nat.mod_eq_of_lt (by omega)
          rw [BitVec.toInt_eq_toNat_of_lt (by omega), unsigned, Count]
          omega
        rw [made_withImmediate]
        exact reads.propagated _ _ count
      next =>
        rw [made_withImmediate]
        exact reads.propagated _ _ fits

theorem Reads.propagateSdiv (reads : Reads Wanted seen) (destReg srcReg : Sequences.Reg)
    (fits : Fits 13 value.toInt) :
    ∀ made ∈ (Sequences.propagateSdiv predecessor destReg srcReg orgReg value
        lastUsedRegs).nodes.flatMap fun node => immediates alloc allocF node.instr,
      Wanted made.1 made.2 := by
  unfold Sequences.propagateSdiv
  split
  · rw [made_withImmediate]
    exact reads.propagated _ _ (by decide)
  · split
    · have halve : ∀ made ∈ immediates (F := F) alloc allocF
            (.alu .srl Sequences.g1 srcReg (.imm 0x1f)) ++
          immediates (F := F) alloc allocF (.alu .sra destReg Sequences.g1 (.imm 1)),
          Wanted made.1 made.2 := by
        rw [List.forall_mem_append]
        exact ⟨reads.propagated _ _ (by decide), reads.propagated _ _ (by decide)⟩
      dsimp only
      rw [made_withImmediate]
      split
      · exact halve
      · exact halve
    · rw [made_withImmediate]
      exact reads.propagated _ _ fits

theorem Reads.propagation (reads : Reads Wanted seen) (predecessor : Instr Sequences.Reg Unit)
    (node : Sequences.InstrNode Unit) :
    (∀ made ∈ propagate alloc allocF known predecessor node, Wanted made.1 made.2) ↔
      (Producer.propagation alloc allocF known predecessor node).InRange seen := by
  have double : ∀ number reg, Reg.float number ≠ .cc reg := nofun
  obtain ⟨instr, lastUsedRegs⟩ := node
  cases found : Sequences.constantOperand known instr with
  | none => simp [propagate, Producer.InRange, found]
  | some constant =>
      obtain ⟨orgReg, value⟩ := constant
      have fits := fits_immediate (Sequences.constantOperand_eq found).2.2
      have inside := reads.fits reading_simm13 fits
      simp only [propagate, Producer.InRange, found]
      cases instr with
      | alu op destReg srcReg operand =>
          cases op with
          | smul => exact iff_of_true (reads.propagateSmul destReg srcReg fits) nofun
          | sdiv => exact iff_of_true (reads.propagateSdiv destReg srcReg fits) nofun
          | sll | srl | sra =>
              rw [Sequences.propagateConstant, made_withImmediate]
              refine List.forall_mem_singleton.trans ?_
              exact (reads.alu _ (Reg.integer_ne_cc _) (Reg.integer_ne_cc _) _).trans
                ⟨fun count _ => count, fun count => count rfl⟩
          | _ =>
              rw [Sequences.propagateConstant, made_withImmediate]
              exact iff_of_true (reads.propagated _ _ fits) nofun
      | load width destReg baseReg operand =>
          rw [Sequences.propagateConstant, made_withImmediate]
          refine iff_of_true (List.forall_mem_singleton.mpr ?_) trivial
          exact (reads.load (loadCode_mem width) (Reg.integer_ne_cc _) (Reg.integer_ne_cc _) _).mpr
            inside
      | loadDouble destReg baseReg operand =>
          rw [Sequences.propagateConstant, made_withImmediate]
          refine iff_of_true (List.forall_mem_singleton.mpr ?_) trivial
          exact (reads.load (by decide) (double _) (Reg.integer_ne_cc _) _).mpr inside
      | store width srcReg baseReg operand =>
          rw [Sequences.propagateConstant, Sequences.Propagated.nodes, List.flatMap_append,
            made_orgMarker, List.nil_append, List.flatMap_singleton]
          refine iff_of_true (List.forall_mem_singleton.mpr ?_) trivial
          exact (reads.store (storeCode_mem width) (Reg.integer_ne_cc _) (Reg.integer_ne_cc _)
            _).mpr inside
      | storeDouble srcReg baseReg operand =>
          rw [Sequences.propagateConstant, Sequences.Propagated.nodes, List.flatMap_append,
            made_orgMarker, List.nil_append, List.flatMap_singleton]
          refine iff_of_true (List.forall_mem_singleton.mpr ?_) trivial
          exact (reads.store (by decide) (double _) (Reg.integer_ne_cc _) _).mpr inside
      | _ => simp [Sequences.constantOperand, Sequences.orgReg] at found

end Propagation

theorem Reads.guarded (reads : Reads Wanted seen) {op : Op} (unshifted : op.shifts = false)
    (temp : BitVec 5) {destReg srcReg : Reg} (dest : ∀ number, destReg ≠ .cc number)
    (src : ∀ number, srcReg ≠ .cc number) (val : Int) :
    ∀ made ∈ guardedConstant op temp destReg srcReg val, Wanted made.1 made.2 := by
  unfold guardedConstant
  split
  next inside =>
    have fits : Fits 13 val := by
      rw [Fits]
      omega
    rw [loadImmediate, List.forall_mem_singleton]
    exact (reads.arithmetic (arithmetic_opCode unshifted) dest src val).mpr
      (reads.fits reading_simm13 fits)
  next => exact reads.twoParts (reads.load (by decide) dest (Reg.integer_ne_cc temp) _)

theorem Reads.dispatch (reads : Reads Wanted seen) (inlineCache : Bool) {destReg srcReg : Reg}
    (dest : ∀ number, destReg ≠ .cc number) (src : ∀ number, srcReg ≠ .cc number) (methIdx : Int) :
    (∀ made ∈ translateDispatch inlineCache destReg srcReg methIdx, Wanted made.1 made.2) ↔
      Fits 13 (seen 16 (4 * methIdx)) := by
  rw [translateDispatch, loadImmediate, List.forall_mem_singleton]
  cases inlineCache with
  | true => exact reads.arithmetic (arithmetic_opCode rfl) dest src _
  | false => exact reads.load (by decide) dest src _

theorem Reads.new (reads : Reads Wanted seen) {destReg : Reg}
    (dest : ∀ number, destReg ≠ .cc number) (objsize : Nat) :
    ∀ made ∈ translateNew destReg objsize, Wanted made.1 made.2 := by
  unfold translateNew
  split
  next small =>
    have fits : Fits 13 (objsize : Int) := by
      rw [Fits]
      omega
    rw [loadImmediate, List.forall_mem_singleton]
    exact (reads.arithmetic (arithmetic_opCode rfl) dest (Reg.integer_ne_cc 0) _).mpr
      (reads.fits reading_simm13 fits)
  next => exact nofun

theorem Reads.multianewarray (reads : Reads Wanted seen) {destReg : Reg}
    (dest : ∀ number, destReg ≠ .cc number) (dim : BitVec 8) :
    ∀ made ∈ translateMultianewarray destReg dim, Wanted made.1 made.2 := by
  have fits : Fits 13 (dim.toNat : Int) := by
    have bound := dim.isLt
    rw [Fits]
    omega
  rw [translateMultianewarray, loadImmediate, List.forall_mem_singleton]
  exact (reads.arithmetic (arithmetic_opCode rfl) dest (Reg.integer_ne_cc 0) _).mpr
    (reads.fits reading_simm13 fits)

theorem Reads.made (reads : Reads Wanted seen) (producer : Producer)
    (machine : ∀ reg ∈ producer.registers, ∀ number, reg ≠ .cc number) :
    (∀ made ∈ producer.made, Wanted made.1 made.2) ↔ producer.InRange seen := by
  have first {reg : Reg} {regs : List Reg} (same : producer.registers = reg :: regs) :
      ∀ number, reg ≠ .cc number :=
    machine reg (same ▸ List.mem_cons_self)
  have second {reg reg2 : Reg} {regs : List Reg} (same : producer.registers = reg :: reg2 :: regs) :
      ∀ number, reg2 ≠ .cc number :=
    machine reg2 (same ▸ List.mem_cons_of_mem _ List.mem_cons_self)
  cases producer with
  | iinc destReg srcReg constant =>
    have fits : Fits 13 (seen 16 constant.toInt) :=
      reads.fits reading_simm13 (fits_byte constant)
    have add := reads.arithmetic (arithmetic_opCode (show Op.add.shifts = false from rfl))
      (first rfl) (second rfl) constant.toInt
    exact (Reads.one _ add).trans (iff_true_intro fits)
  | wideIinc destReg srcReg constant =>
    exact Reads.one _ (reads.arithmetic (arithmetic_opCode rfl) (first rfl) (second rfl) _)
  | spill type fromReg number => exact reads.spill (first rfl) number
  | promotion type number toReg => exact reads.promotion (first rfl) number
  | frame maxNumOfArgs spillRegNum => exact reads.frame _
  | getfield type objectReg destReg destReg2 foffset =>
    exact reads.getfield type (first rfl) (second rfl)
      (machine destReg2 (.tail _ (.tail _ (.head _)))) foffset
  | putfield type objectReg srcReg srcReg2 foffset =>
    exact reads.putfield type (first rfl) (second rfl)
      (machine srcReg2 (.tail _ (.tail _ (.head _)))) foffset
  | branch op target instr => exact reads.branch op target instr
  | alu op destReg srcReg constant =>
    exact List.forall_mem_singleton.trans (reads.alu op (first rfl) (second rfl) constant)
  | longShift op shifts destReg srcReg count =>
    exact List.forall_mem_singleton.trans (reads.longShift shifts (first rfl) (second rfl) count)
  | load code mem destReg srcReg constant =>
    exact Reads.one _ (reads.load mem (first rfl) (second rfl) constant)
  | store code mem srcReg2 srcReg1 constant =>
    exact Reads.one _ (reads.store mem (first rfl) (second rfl) constant)
  | guarded op unshifted temp destReg srcReg val =>
    exact iff_of_true (reads.guarded unshifted temp (first rfl) (second rfl) val) trivial
  | address code mem temp destReg val =>
    exact iff_of_true
      (reads.twoParts (reads.load mem (first rfl) (Reg.integer_ne_cc temp) _)) trivial
  | addressStore code mem temp srcReg val =>
    exact iff_of_true
      (reads.twoParts (reads.store mem (first rfl) (Reg.integer_ne_cc temp) _)) trivial
  | dispatch inlineCache destReg srcReg methIdx =>
    exact reads.dispatch inlineCache (first rfl) (second rfl) methIdx
  | inclusionTest isInstanceof rowReg byteReg bitReg destReg pos =>
    exact reads.inclusionTest isInstanceof (first rfl) (second rfl)
      (machine bitReg (.tail _ (.tail _ (.head _))))
      (machine destReg (.tail _ (.tail _ (.tail _ (.head _))))) pos
  | new destReg objsize => exact iff_of_true (reads.new (first rfl) objsize) trivial
  | multianewarray destReg dim => exact iff_of_true (reads.multianewarray (first rfl) dim) trivial
  | argument code mem reg i =>
    exact Reads.one _ (reads.store mem (first rfl) (Reg.integer_ne_cc 14) _)
  | parameter code mem reg i =>
    exact Reads.one _ (reads.load mem (first rfl) (Reg.integer_ne_cc 30) _)
  | propagation alloc allocF known predecessor node => exact reads.propagation predecessor node
  | call data instr => exact reads.call data instr
  | trap cond intrpNum mem => exact iff_of_true (reads.trap cond mem) trivial

/-- The constants that are read back, and those that are read as the node holds them. -/
theorem immediates_exact (producer : Producer)
    (machine : ∀ reg ∈ producer.registers, ∀ number, reg ≠ .cc number) :
    ((∀ made ∈ producer.made, Keeps made.1 made.2) ↔
      producer.InRange fun _ constant => constant) ∧
    ((∀ made ∈ producer.made, decode made.2.assemble = made.2.held) ↔
      producer.InRange truncated) :=
  ⟨reads_keeps.made producer machine, reads_held.made producer machine⟩

def lastDispatch : Producer := .dispatch false (.integer 16) (.integer 17) 1023

theorem immediates_exact_dispatch :
    (∀ reg ∈ lastDispatch.registers, ∀ number, reg ≠ .cc number) ∧
      ∀ made ∈ lastDispatch.made, Keeps made.1 made.2 := by
  have machine : ∀ reg ∈ lastDispatch.registers, ∀ number, reg ≠ .cc number := by
    intro reg mem number equal
    simp [lastDispatch, Producer.registers, equal] at mem
  exact ⟨machine, (immediates_exact lastDispatch machine).1.mpr ⟨by decide, by decide⟩⟩

def wideIincFar : Producer := .wideIinc (.integer 16) (.integer 16) 5000#16

/-- It becomes a decrement. -/
theorem wide_iinc_becomes_negative :
    ∃ made ∈ wideIincFar.made, made.2.held = some 5000 ∧ decode made.2.assemble = some (-3192) :=
  ⟨_, .head _, rfl, by decide⟩

end Producers

end LaTTe.Translator.Immediates
