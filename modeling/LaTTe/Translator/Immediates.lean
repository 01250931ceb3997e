import LaTTe.Sparc.Fields
import LaTTe.Sparc.Machine

namespace LaTTe.Translator.Immediates

open LaTTe.Sparc

/-! Constants in instruction nodes and in the machine words made of them. -/

inductive Reg where
  | integer (number : BitVec 5)
  | float (number : BitVec 5)
  | cc (number : BitVec 3)
  deriving DecidableEq, Repr

namespace Reg

def g1 : Reg := integer 1

def sp : Reg := integer 14

def fp : Reg := integer 30

def number : Reg → Word
  | integer number => number.setWidth 32
  | float number => number.setWidth 32 + 32#32
  | cc number => number.setWidth 32 + 64#32

def machineRegNum : Reg → Word
  | float number => number.setWidth 32
  | reg => reg.number

end Reg

inductive InstrFields where
  | format1 (disp30 : BitVec 32)
  | format2 (destReg : Reg) (imm22 : BitVec 32)
  | format3 (disp22 : BitVec 32)
  | format4 (destReg srcReg1 srcReg2 : Reg)
  | format5 (destReg srcReg : Reg) (simm13 : BitVec 16)
  | format6 (destReg srcReg1 srcReg2 : Reg)
  | format7 (srcReg3 srcReg1 srcReg2 : Reg)
  | format8 (srcReg2 srcReg1 : Reg) (simm13 : BitVec 16)
  | format9 (intrpNum : BitVec 16)
  deriving DecidableEq, Repr

structure InstrNode where
  instrCode : Word
  fields : InstrFields
  deriving DecidableEq, Repr

namespace InstrNode

def isCondMove (code : Word) : Bool := code &&& 0xc1f80000#32 = 0x81600000#32

/-- `CodeGen_assemble_instruction`. -/
def assemble (instr : InstrNode) : Word :=
  let code := instr.instrCode
  match instr.fields with
  | .format1 disp30 => (0xc0000000#32 &&& code) ||| (0x3fffffff#32 &&& disp30)
  | .format2 destReg imm22 =>
      (0xfffc0000#32 &&& code) ||| (destReg.number <<< 25) ||| (0x3fffff#32 &&& imm22)
  | .format3 disp22 => (0xfff80000#32 &&& code) ||| (0x7ffff#32 &&& disp22)
  | .format4 destReg srcReg1 srcReg2 =>
      (0xc1fc3fe0#32 &&& code) ||| (destReg.machineRegNum <<< 25) |||
        (srcReg1.machineRegNum <<< 14) ||| srcReg2.machineRegNum
  | .format5 destReg srcReg simm13 =>
      if isCondMove code then
        code ||| (1#32 <<< 13) ||| (simm13.signExtend 32 &&& 0x7ff#32) |||
          (destReg.machineRegNum <<< 25) ||| (srcReg.number <<< 11)
      else
        code ||| (1#32 <<< 13) ||| (simm13.signExtend 32 &&& 0x1fff#32) |||
          (destReg.machineRegNum <<< 25) ||| (srcReg.machineRegNum <<< 14)
  | .format6 destReg srcReg1 srcReg2 =>
      if isCondMove code then
        code ||| (destReg.machineRegNum <<< 25) ||| (srcReg1.number <<< 11) |||
          srcReg2.machineRegNum
      else
        (0xc1fc3fe0#32 &&& code) ||| (destReg.machineRegNum <<< 25) |||
          (srcReg1.machineRegNum <<< 14) ||| srcReg2.machineRegNum
  | .format7 srcReg3 srcReg1 srcReg2 =>
      (0xc1fc0000#32 &&& code) ||| (srcReg3.machineRegNum <<< 25) |||
        (srcReg1.machineRegNum <<< 14) ||| srcReg2.machineRegNum
  | .format8 srcReg2 srcReg1 simm13 =>
      (0xc1fc0000#32 &&& code) ||| (1#32 <<< 13) ||| (simm13.signExtend 32 &&& 0x1fff#32) |||
        (srcReg2.machineRegNum <<< 25) ||| (srcReg1.machineRegNum <<< 14)
  | .format9 intrpNum => code ||| intrpNum.signExtend 32

def held (instr : InstrNode) : Option Int :=
  match instr.fields with
  | .format1 disp30 => some disp30.toInt
  | .format2 _ imm22 => some imm22.toInt
  | .format3 disp22 => some disp22.toInt
  | .format5 _ _ simm13 => some simm13.toInt
  | .format8 _ _ simm13 => some simm13.toInt
  | .format9 intrpNum => some intrpNum.toInt
  | _ => none

end InstrNode

/-- The count of a shift: bit 12 selects the one of 64 bits. -/
def decodeCount (word : Word) : Int :=
  if field 12 1 word = 1 then (field 0 6 word).toNat else (field 0 5 word).toNat

def decode (word : Word) : Option Int :=
  let op := (field 30 2 word).toNat
  let op2 := (field 22 3 word).toNat
  let op3 := (field 19 6 word).toNat
  if op = 1 then some (field 0 30 word).toInt
  else if op = 0 then
    if op2 = 4 then some (field 0 22 word).toNat
    else if op2 = 1 ∨ op2 = 5 then some (field 0 19 word).toInt
    else if op2 = 2 ∨ op2 = 6 then some (field 0 22 word).toInt
    else none
  else if field 13 1 word = 0 then none
  else if op = 2 ∧ op3 = 0x2c then some (field 0 11 word).toInt
  else if op = 2 ∧ op3 = 0x3a then some (field 0 7 word).toNat
  else if op = 2 ∧ (op3 = 0x25 ∨ op3 = 0x26 ∨ op3 = 0x27) then some (decodeCount word)
  else some (field 0 13 word).toInt

def Keeps (constant : Int) (instr : InstrNode) : Prop :=
  instr.held = some constant ∧ decode instr.assemble = some constant

/-! The instructions with an immediate field. -/

def codeLDSB : Word := 0x9#32 <<< 19 ||| 0x3#32 <<< 30

def codeLDSH : Word := 0xa#32 <<< 19 ||| 0x3#32 <<< 30

def codeLDUH : Word := 0x2#32 <<< 19 ||| 0x3#32 <<< 30

def codeLD : Word := 0x0#32 <<< 19 ||| 0x3#32 <<< 30

def codeLDUB : Word := 0x1#32 <<< 19 ||| 0x3#32 <<< 30

def codeLDFSR : Word := 0x21#32 <<< 19 ||| 0x3#32 <<< 30

def codeLDF : Word := 0x20#32 <<< 19 ||| 0x3#32 <<< 30

def codeLDDF : Word := 0x23#32 <<< 19 ||| 0x3#32 <<< 30

def codeSTB : Word := 0x5#32 <<< 19 ||| 0x3#32 <<< 30

def codeSTH : Word := 0x6#32 <<< 19 ||| 0x3#32 <<< 30

def codeST : Word := 0x4#32 <<< 19 ||| 0x3#32 <<< 30

def codeSTF : Word := 0x24#32 <<< 19 ||| 0x3#32 <<< 30

def codeSTDF : Word := 0x27#32 <<< 19 ||| 0x3#32 <<< 30

def codeSETHI : Word := 0x4#32 <<< 22 ||| 0x0#32 <<< 30

def codeCALL : Word := 0x1#32 <<< 30

def codeJMPL : Word := 0x38#32 <<< 19 ||| 0x2#32 <<< 30

def codeSAVE : Word := 0x3c#32 <<< 19 ||| 0x2#32 <<< 30

def op3 : Op → Word
  | .add => 0x0 | .addcc => 0x10 | .addx => 0x8 | .addxcc => 0x18
  | .sub => 0x4 | .subcc => 0x14 | .subx => 0xc | .subxcc => 0x1c
  | .and => 0x1 | .andcc => 0x11 | .andn => 0x5 | .andncc => 0x15
  | .or => 0x2 | .orcc => 0x12 | .orn => 0x6 | .orncc => 0x16
  | .xor => 0x3 | .xorcc => 0x13 | .xnor => 0x7 | .xnorcc => 0x17
  | .sll => 0x25 | .srl => 0x26 | .sra => 0x27
  | .umul => 0xa | .smul => 0xb | .udiv => 0xe | .sdiv => 0xf

def opCode (op : Op) : Word := op3 op <<< 19 ||| 0x2#32 <<< 30

/-- SLLX, SRLX and SRAX. -/
def longCode (op : Op) : Word := op3 op <<< 19 ||| 0x1#32 <<< 12 ||| 0x2#32 <<< 30

/-- `create_format5_instruction` and `create_format8_instruction` take a `short`. -/
def format5 (code : Word) (destReg srcReg : Reg) (constant : Int) : InstrNode :=
  ⟨code, .format5 destReg srcReg (BitVec.ofInt 16 constant)⟩

def format8 (code : Word) (srcReg2 srcReg1 : Reg) (constant : Int) : InstrNode :=
  ⟨code, .format8 srcReg2 srcReg1 (BitVec.ofInt 16 constant)⟩

structure BranchOp where
  cond : BitVec 4
  isFloat : Bool
  annul : Bool
  useXcc : Bool
  predictTaken : Bool
  deriving DecidableEq, Repr

def BranchOp.code (op : BranchOp) : Word :=
  (op.cond.setWidth 32 <<< 25) ||| ((if op.isFloat then 0x5#32 else 0x1#32) <<< 22) |||
    ((if op.annul then 1#32 else 0#32) <<< 29) ||| ((if op.useXcc then 2#32 else 0#32) <<< 20) |||
    ((if op.predictTaken then 1#32 else 0#32) <<< 19)

/-! The encoding. -/

section Encoding

structure Arithmetic (code : Word) : Prop where
  op : field 30 2 code = 2 ∨ field 30 2 code = 3
  plain : ¬ (field 30 2 code = 2 ∧ field 19 6 code ∈ [0x2c, 0x3a, 0x25, 0x26, 0x27])
  clear : field 0 13 code = 0
  noMove : InstrNode.isCondMove code = false

theorem arithmetic_iff (code : Word) :
    Arithmetic code ↔
      (field 30 2 code = 2 ∨ field 30 2 code = 3) ∧
        ¬ (field 30 2 code = 2 ∧ field 19 6 code ∈ [0x2c, 0x3a, 0x25, 0x26, 0x27]) ∧
        field 0 13 code = 0 ∧ InstrNode.isCondMove code = false :=
  ⟨fun ⟨op, plain, clear, noMove⟩ => ⟨op, plain, clear, noMove⟩,
    fun ⟨op, plain, clear, noMove⟩ => ⟨op, plain, clear, noMove⟩⟩

instance (code : Word) : Decidable (Arithmetic code) :=
  decidable_of_iff' _ (arithmetic_iff code)

theorem Reg.number_eq (reg : Reg) (machine : ∀ number, reg ≠ .cc number) :
    ∃ number : BitVec 5, reg.machineRegNum = number.setWidth 32 := by
  cases reg with
  | integer number => exact ⟨number, rfl⟩
  | float number => exact ⟨number, rfl⟩
  | cc number => exact absurd rfl (machine number)

theorem Reg.integer_ne_cc (number : BitVec 5) (cc : BitVec 3) : Reg.integer number ≠ .cc cc :=
  nofun

theorem decode_immediate {code : Word} (arithmetic : Arithmetic code) (value : BitVec 13)
    (rd rs1 : BitVec 5) :
    decode (code ||| place 13 (1 : BitVec 1) ||| place 0 value ||| place 25 rd |||
      place 14 rs1) = some value.toInt := by
  set word := code ||| place 13 (1 : BitVec 1) ||| place 0 value ||| place 25 rd ||| place 14 rs1
  have op : field 30 2 word = field 30 2 code := by
    simp [word, field_or, field_place_apart]
  have op3 : field 19 6 word = field 19 6 code := by
    simp [word, field_or, field_place_apart]
  have immediate : field 13 1 word = 1 := by
    have set : ∀ bit : BitVec 1, bit ||| 1 = 1 := by decide
    simpa [word, field_or, field_place_apart, field_place] using set (field 13 1 code)
  have low : field 0 13 word = value := by
    simp [word, field_or, field_place_apart, field_place, arithmetic.clear]
  have above : (field 30 2 code).toNat ≠ 1 ∧ (field 30 2 code).toNat ≠ 0 := by
    rcases arithmetic.op with two | three
    · rw [two]
      decide
    · rw [three]
      decide
  have plain := arithmetic.plain
  simp only [List.mem_cons, List.not_mem_nil, or_false, ← BitVec.toNat_inj] at plain
  simp only [decode, op, op3, immediate, low]
  rw [if_neg above.1, if_neg above.2, if_neg (by decide), if_neg, if_neg, if_neg]
  · exact fun shift => plain ⟨shift.1, .inr (.inr shift.2)⟩
  · exact fun trap => plain ⟨trap.1, .inr (.inl trap.2)⟩
  · exact fun move => plain ⟨move.1, .inl move.2⟩

theorem masked_immediate (constant : Int) :
    (BitVec.ofInt 16 constant).signExtend 32 &&& 0x1fff#32 =
      place 0 (BitVec.ofInt 13 constant) := by
  have mask : 0x1fff#32 = BitVec.ofNat 32 (2 ^ 13 - 1) := rfl
  rw [mask, and_mask (by decide), setWidth_signExtend (by decide) (by decide),
    setWidth_ofInt (by decide)]

theorem decode_format5 {code : Word} (arithmetic : Arithmetic code) {destReg srcReg : Reg}
    (dest : ∀ number, destReg ≠ .cc number) (src : ∀ number, srcReg ≠ .cc number)
    (constant : Int) :
    decode (format5 code destReg srcReg constant).assemble =
      some (BitVec.ofInt 13 constant).toInt := by
  obtain ⟨rd, rdNumber⟩ := Reg.number_eq destReg dest
  obtain ⟨rs1, rs1Number⟩ := Reg.number_eq srcReg src
  have word : (format5 code destReg srcReg constant).assemble =
      code ||| (1#32 <<< 13) ||| ((BitVec.ofInt 16 constant).signExtend 32 &&& 0x1fff#32) |||
        (destReg.machineRegNum <<< 25) ||| (srcReg.machineRegNum <<< 14) :=
    if_neg (Bool.not_eq_true _ ▸ arithmetic.noMove)
  rw [word, masked_immediate, rdNumber, rs1Number]
  exact decode_immediate arithmetic _ rd rs1

theorem decode_format8 {code : Word} (arithmetic : Arithmetic (0xc1fc0000#32 &&& code))
    {srcReg2 srcReg1 : Reg} (src2 : ∀ number, srcReg2 ≠ .cc number)
    (src1 : ∀ number, srcReg1 ≠ .cc number) (constant : Int) :
    decode (format8 code srcReg2 srcReg1 constant).assemble =
      some (BitVec.ofInt 13 constant).toInt := by
  obtain ⟨rd, rdNumber⟩ := Reg.number_eq srcReg2 src2
  obtain ⟨rs1, rs1Number⟩ := Reg.number_eq srcReg1 src1
  have word : (format8 code srcReg2 srcReg1 constant).assemble =
      (0xc1fc0000#32 &&& code) ||| (1#32 <<< 13) |||
        ((BitVec.ofInt 16 constant).signExtend 32 &&& 0x1fff#32) |||
        (srcReg2.machineRegNum <<< 25) ||| (srcReg1.machineRegNum <<< 14) := rfl
  rw [word, masked_immediate, rdNumber, rs1Number]
  exact decode_immediate arithmetic _ rd rs1

structure Shift (code : Word) : Prop where
  op : field 30 2 code = 2
  op3 : field 19 6 code = 0x25 ∨ field 19 6 code = 0x26 ∨ field 19 6 code = 0x27
  noMove : InstrNode.isCondMove code = false

theorem shift_iff (code : Word) :
    Shift code ↔
      field 30 2 code = 2 ∧
        (field 19 6 code = 0x25 ∨ field 19 6 code = 0x26 ∨ field 19 6 code = 0x27) ∧
        InstrNode.isCondMove code = false :=
  ⟨fun ⟨op, op3, noMove⟩ => ⟨op, op3, noMove⟩, fun ⟨op, op3, noMove⟩ => ⟨op, op3, noMove⟩⟩

instance (code : Word) : Decidable (Shift code) :=
  decidable_of_iff' _ (shift_iff code)

/-- The count in the immediate field of a shift. -/
def fieldCount (low : BitVec 13) : Int :=
  if low.extractLsb' 12 1 = 1 then (low.extractLsb' 0 6).toNat else (low.extractLsb' 0 5).toNat

theorem decodeCount_eq (word : Word) : decodeCount word = fieldCount (field 0 13 word) := by
  have part (start width : Nat) (inside : start + width ≤ 13) :
      (field 0 13 word).extractLsb' start width = field start width word := by
    ext i bound
    have below : start + i < 13 := by omega
    simp [field, below]
  rw [decodeCount, fieldCount, part 12 1 (by decide), part 0 6 (by decide), part 0 5 (by decide)]

theorem decode_shift {code : Word} (shift : Shift code) {destReg srcReg : Reg}
    (dest : ∀ number, destReg ≠ .cc number) (src : ∀ number, srcReg ≠ .cc number)
    (constant : Int) :
    decode (format5 code destReg srcReg constant).assemble =
      some (fieldCount (field 0 13 code ||| BitVec.ofInt 13 constant)) := by
  obtain ⟨rd, rdNumber⟩ := Reg.number_eq destReg dest
  obtain ⟨rs1, rs1Number⟩ := Reg.number_eq srcReg src
  set word := (format5 code destReg srcReg constant).assemble with assembled
  have shape : word = code ||| place 13 (1 : BitVec 1) ||| place 0 (BitVec.ofInt 13 constant) |||
      place 25 rd ||| place 14 rs1 := by
    have plain : word = code ||| (1#32 <<< 13) |||
        ((BitVec.ofInt 16 constant).signExtend 32 &&& 0x1fff#32) |||
          (destReg.machineRegNum <<< 25) ||| (srcReg.machineRegNum <<< 14) :=
      if_neg (Bool.not_eq_true _ ▸ shift.noMove)
    rw [plain, masked_immediate, rdNumber, rs1Number]
    rfl
  have op : field 30 2 word = 2 := by
    simp [shape, field_or, field_place_apart, shift.op]
  have op3 : field 19 6 word = field 19 6 code := by
    simp [shape, field_or, field_place_apart]
  have immediate : field 13 1 word = 1 := by
    have set : ∀ bit : BitVec 1, bit ||| 1 = 1 := by decide
    simpa [shape, field_or, field_place_apart, field_place] using set (field 13 1 code)
  have low : field 0 13 word = field 0 13 code ||| BitVec.ofInt 13 constant := by
    simp [shape, field_or, field_place_apart, field_place]
  have kind : (field 19 6 code).toNat = 0x25 ∨ (field 19 6 code).toNat = 0x26 ∨
      (field 19 6 code).toNat = 0x27 := by
    rcases shift.op3 with sll | srl | sra
    · exact .inl (congrArg BitVec.toNat sll)
    · exact .inr (.inl (congrArg BitVec.toNat srl))
    · exact .inr (.inr (congrArg BitVec.toNat sra))
  have other : (field 19 6 code).toNat ≠ 0x2c ∧ (field 19 6 code).toNat ≠ 0x3a := by omega
  simp only [decode, op, op3, immediate]
  rw [if_neg (by decide), if_neg (by decide), if_neg (by decide), if_neg (other.1 ·.2),
    if_neg (other.2 ·.2), if_pos ⟨rfl, kind⟩, decodeCount_eq, low]

theorem decode_call (disp30 : Word) :
    decode (InstrNode.mk codeCALL (.format1 disp30)).assemble =
      some (BitVec.ofInt 30 disp30.toNat).toInt := by
  have mask : 0x3fffffff#32 = BitVec.ofNat 32 (2 ^ 30 - 1) := rfl
  set word := (InstrNode.mk codeCALL (.format1 disp30)).assemble with assembled
  have shape : word = place 30 (1 : BitVec 2) ||| place 0 (BitVec.ofInt 30 disp30.toNat) := by
    have cut : BitVec.ofInt 30 (disp30.toNat : Int) = disp30.setWidth 30 := by
      rw [← setWidth_ofInt (by decide : 30 ≤ 32)]
      simp
    have code : 0xc0000000#32 &&& codeCALL = place 30 (1 : BitVec 2) := by decide
    rw [cut, ← and_mask (by decide), ← mask, BitVec.and_comm _ 0x3fffffff#32]
    exact congrArg (· ||| (0x3fffffff#32 &&& disp30)) code
  have op : field 30 2 word = 1 := by
    simp [shape, field_or, field_place_apart, field_place]
  have low : field 0 30 word = BitVec.ofInt 30 disp30.toNat := by
    simp [shape, field_or, field_place_apart, field_place]
  simp only [decode, op, low]
  rfl

structure Branch (code : Word) : Prop where
  op : field 30 2 (0xfff80000#32 &&& code) = 0
  op2 : field 22 3 (0xfff80000#32 &&& code) = 1 ∨ field 22 3 (0xfff80000#32 &&& code) = 5
  clear : field 0 19 (0xfff80000#32 &&& code) = 0

theorem branch_iff (code : Word) :
    Branch code ↔
      field 30 2 (0xfff80000#32 &&& code) = 0 ∧
        (field 22 3 (0xfff80000#32 &&& code) = 1 ∨ field 22 3 (0xfff80000#32 &&& code) = 5) ∧
        field 0 19 (0xfff80000#32 &&& code) = 0 :=
  ⟨fun ⟨op, op2, clear⟩ => ⟨op, op2, clear⟩, fun ⟨op, op2, clear⟩ => ⟨op, op2, clear⟩⟩

instance (code : Word) : Decidable (Branch code) :=
  decidable_of_iff' _ (branch_iff code)

theorem decode_branch {code : Word} (branch : Branch code) (disp22 : Int) :
    decode (InstrNode.mk code (.format3 (BitVec.ofInt 32 disp22))).assemble =
      some (BitVec.ofInt 19 disp22).toInt := by
  have mask : 0x7ffff#32 = BitVec.ofNat 32 (2 ^ 19 - 1) := rfl
  set word := (InstrNode.mk code (.format3 (BitVec.ofInt 32 disp22))).assemble with assembled
  have shape : word = (0xfff80000#32 &&& code) ||| place 0 (BitVec.ofInt 19 disp22) := by
    rw [assembled, ← setWidth_ofInt (by decide : 19 ≤ 32), ← and_mask (by decide), ← mask,
      BitVec.and_comm _ 0x7ffff#32]
    rfl
  have op : field 30 2 word = 0 := by
    rw [shape, field_or, field_place_apart (by decide), branch.op]
    rfl
  have op2 : field 22 3 word = field 22 3 (0xfff80000#32 &&& code) := by
    rw [shape, field_or, field_place_apart (by decide)]
    exact BitVec.or_zero
  have low : field 0 19 word = BitVec.ofInt 19 disp22 := by
    rw [shape, field_or, branch.clear, field_place (by decide)]
    exact BitVec.zero_or
  simp only [decode, op, op2, low]
  rcases branch.op2 with one | five
  · rw [one]
    rfl
  · rw [five]
    rfl

theorem decode_sethi (number : BitVec 5) {imm22 : Word} (narrow : imm22.toNat < 2 ^ 22) :
    decode (InstrNode.mk codeSETHI (.format2 (.integer number) imm22)).assemble =
      some imm22.toInt := by
  have mask : 0x3fffff#32 = BitVec.ofNat 32 (2 ^ 22 - 1) := rfl
  set word := (InstrNode.mk codeSETHI (.format2 (.integer number) imm22)).assemble with assembled
  have kept : 0xfffc0000#32 &&& codeSETHI = codeSETHI := by decide
  have shape : word = codeSETHI ||| place 25 number ||| place 0 (imm22.setWidth 22) := by
    rw [assembled, ← and_mask (by decide), ← mask, BitVec.and_comm _ 0x3fffff#32]
    exact congrArg (· ||| place 25 number ||| _) kept
  have code : field 30 2 codeSETHI = 0 ∧ field 22 3 codeSETHI = 4 ∧
      field 0 22 codeSETHI = 0 := by
    decide
  have op : field 30 2 word = 0 := by
    simp [shape, field_or, field_place_apart, code.1]
  have op2 : field 22 3 word = 4 := by
    simp [shape, field_or, field_place_apart, code.2.1]
  have low : field 0 22 word = imm22.setWidth 22 := by
    simp [shape, field_or, field_place_apart, field_place, code.2.2]
  have unsigned : imm22.toInt = imm22.toNat := BitVec.toInt_eq_toNat_of_lt (by omega)
  have same : (imm22.setWidth 22).toNat = imm22.toNat := by
    rw [BitVec.toNat_setWidth, Nat.mod_eq_of_lt narrow]
  have decoded : decode word = some ((imm22.setWidth 22).toNat : Int) := by
    simp only [decode, op, op2, low]
    rfl
  rw [decoded, same, unsigned]

/-! A constant that fits in a field, fits in the node. -/

def truncated (width : Nat) (constant : Int) : Int := (BitVec.ofInt width constant).toInt

theorem truncated_of_fits {small width : Nat} (positive : 0 < small) (narrow : small ≤ width)
    {constant : Int} (fits : Fits small constant) : truncated width constant = constant := by
  have wider : (2 : Int) ^ (small - 1) ≤ 2 ^ (width - 1) := by
    exact_mod_cast Nat.pow_le_pow_right (by decide : 0 < 2) (by omega : small - 1 ≤ width - 1)
  refine (toInt_ofInt_iff (by omega)).mpr ⟨?_, lt_of_lt_of_le fits.2 wider⟩
  exact le_trans (neg_le_neg wider) fits.1

theorem truncated_truncated {small width : Nat} (narrow : small ≤ width) (constant : Int) :
    BitVec.ofInt small (truncated width constant) = BitVec.ofInt small constant := by
  have cast : BitVec.ofInt width (truncated width constant) = BitVec.ofInt width constant :=
    BitVec.ofInt_toInt
  rw [← setWidth_ofInt narrow, cast, setWidth_ofInt narrow]

/-- How a constant comes back from a field, `read c`, that the node holds in `width` bits. -/
structure Reading (width : Nat) (read : Int → Int) (InField : Int → Prop) : Prop where
  exact : ∀ c, read c = c ↔ InField c
  held : ∀ c, InField c → truncated width c = c
  cut : ∀ c, read (truncated width c) = read c

theorem reading_signed {small width : Nat} (positive : 0 < small) (narrow : small ≤ width) :
    Reading width (truncated small) (Fits small) where
  exact _ := toInt_ofInt_iff positive
  held _ fits := truncated_of_fits positive narrow fits
  cut c := congrArg BitVec.toInt (truncated_truncated narrow c)

def Count (width : Nat) (value : Int) : Prop := 0 ≤ value ∧ value < 2 ^ width

instance (width : Nat) (value : Int) : Decidable (Count width value) :=
  inferInstanceAs (Decidable (_ ∧ _))

theorem fieldCount_ofInt (c : Int) :
    fieldCount (BitVec.ofInt 13 c) = if c % 8192 / 4096 = 1 then c % 64 else c % 32 := by
  have low : (BitVec.ofInt 13 c).toNat = (c % 8192).toNat := BitVec.toNat_ofInt c
  have bit : (BitVec.ofInt 13 c).extractLsb' 12 1 = 1 ↔ c % 8192 / 4096 = 1 := by
    rw [← BitVec.toNat_inj, BitVec.extractLsb'_toNat, low, Nat.shiftRight_eq_div_pow]
    change (c % 8192).toNat / 2 ^ 12 % 2 ^ 1 = 1 ↔ _
    omega
  rw [fieldCount]
  simp only [bit, BitVec.extractLsb'_toNat, low, Nat.shiftRight_zero]
  split
  · omega
  · omega

theorem fieldCount_long (c : Int) : fieldCount (0x1000 ||| BitVec.ofInt 13 c) = c % 64 := by
  have low : (BitVec.ofInt 13 c).toNat = (c % 8192).toNat := BitVec.toNat_ofInt c
  have bit : (0x1000 ||| BitVec.ofInt 13 c).extractLsb' 12 1 = 1 := by
    have set : ∀ bit : BitVec 1, 1 ||| bit = 1 := by decide
    rw [BitVec.extractLsb'_or]
    exact set _
  have count : (0x1000 ||| BitVec.ofInt 13 c).extractLsb' 0 6 =
      (BitVec.ofInt 13 c).extractLsb' 0 6 := by
    rw [BitVec.extractLsb'_or]
    exact BitVec.zero_or
  rw [fieldCount, if_pos bit, count, BitVec.extractLsb'_toNat, low, Nat.shiftRight_zero]
  omega

theorem reading_count : Reading 16 (fun c => fieldCount (BitVec.ofInt 13 c)) (Count 5) where
  exact c := by
    rw [fieldCount_ofInt, Count]
    split
    · omega
    · omega
  held c count := truncated_of_fits (by decide : 0 < 6) (by decide) ⟨by have := count.1; omega, by
    have := count.2; omega⟩
  cut c := congrArg fieldCount (truncated_truncated (by decide) c)

theorem reading_longCount :
    Reading 16 (fun c => fieldCount (0x1000 ||| BitVec.ofInt 13 c)) (Count 6) where
  exact c := by
    rw [fieldCount_long, Count]
    omega
  held c count := truncated_of_fits (by decide : 0 < 7) (by decide) ⟨by have := count.1; omega, by
    have := count.2; omega⟩
  cut c := congrArg (fieldCount <| 0x1000 ||| ·) (truncated_truncated (by decide) c)

section Fields

variable {width : Nat} {read : Int → Int} {InField : Int → Prop} {constant : Int}
variable {instr : InstrNode}

theorem keeps_iff (reading : Reading width read InField)
    (held : instr.held = some (truncated width constant))
    (decoded : decode instr.assemble = some (read constant)) :
    Keeps constant instr ↔ InField constant := by
  rw [Keeps, held, decoded, Option.some.injEq, Option.some.injEq, reading.exact]
  exact ⟨And.right, fun inside => ⟨reading.held constant inside, inside⟩⟩

theorem decode_eq_held_iff (reading : Reading width read InField)
    (held : instr.held = some (truncated width constant))
    (decoded : decode instr.assemble = some (read constant)) :
    decode instr.assemble = instr.held ↔ InField (truncated width constant) := by
  rw [held, decoded, Option.some.injEq, ← reading.cut, reading.exact]

end Fields

end Encoding

end LaTTe.Translator.Immediates
