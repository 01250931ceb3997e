import LaTTe.Sparc.Machine
import LaTTe.Translator.FlowGraph

namespace LaTTe.Sequences

open LaTTe.Sparc
open LaTTe.Translator (VarType)

/-! The instruction sequences that the translator appends for a bytecode. -/

inductive StorageType where
  | stack | local | temp | vn
  deriving DecidableEq, Repr

inductive Reg where
  | hard (number : Nat)
  | var (type : VarType) (storage : StorageType) (number : Int)
  deriving DecidableEq, Repr

namespace Reg

instance : Zero Reg := ⟨.hard 0⟩

def is (a : Int) : Reg := .var .int .stack a

def it (a : Int) : Reg := .var .int .temp a

def ls (a : Int) : Reg := .var .long .stack a

def ivs (a : Int) : Reg := .var .ivoid .stack a

def rs (a : Int) : Reg := .var .ref .stack a

def rt (a : Int) : Reg := .var .ref .temp a

def rl (a : Int) : Reg := .var .ref .local a

theorem var_ne_zero (type : VarType) (storage : StorageType) (number : Int) :
    Reg.var type storage number ≠ 0 := nofun

end Reg

abbrev g0 : Reg := 0

/-! An address in two parts. -/

def hi (val : Word) : Word := val >>> 10

def lo (val : Word) : Word := val &&& 0x3ff

theorem toNat_hi (val : Word) : (hi val <<< 10).toNat = (val.toNat / 2 ^ 10) <<< 10 := by
  have bound := val.isLt
  rw [hi, BitVec.toNat_shiftLeft, BitVec.toNat_ushiftRight, Nat.shiftRight_eq_div_pow,
    Nat.shiftLeft_eq]
  exact Nat.mod_eq_of_lt (by omega)

theorem toNat_lo (val : Word) : (lo val).toNat = val.toNat % 2 ^ 10 := by
  have mask : (0x3ff : Word).toNat = 2 ^ 10 - 1 := rfl
  rw [lo, BitVec.toNat_and, mask, Nat.and_two_pow_sub_one_eq_mod]

theorem hi_add_lo (val : Word) : hi val <<< 10 + lo val = val := by
  have bound := val.isLt
  apply BitVec.eq_of_toNat_eq
  rw [BitVec.toNat_add, toNat_hi, toNat_lo, Nat.shiftLeft_eq]
  omega

theorem hi_or_lo (val : Word) : hi val <<< 10 ||| lo val = val := by
  have low : val.toNat % 2 ^ 10 < 2 ^ 10 := Nat.mod_lt _ (by decide)
  apply BitVec.eq_of_toNat_eq
  rw [BitVec.toNat_or, toNat_hi, toNat_lo, ← Nat.shiftLeft_add_eq_or_of_lt low,
    Nat.shiftLeft_eq]
  omega

structure Emission (F : Type) where
  code : Code Reg F
  cInstr : Nat

abbrev Emit (F : Type) := StateM (Emission F)

variable {F : Type}

namespace Emit

/-- `Instr_connect_instruction`. -/
def connect (previousInstr newInstr : Nat) : Emit F Unit :=
  modify fun emission =>
    { emission with
      code := { emission.code with
        succs := emission.code.succs.modify previousInstr (· ++ [newInstr]) } }

/-- The `APPEND_INSTR` macros: register an instruction behind `c_instr`, which it becomes. -/
def append (instr : Instr Reg F) : Emit F Nat := do
  let newInstr := (← get).code.instrs.length
  let previousInstr := (← get).cInstr
  modify fun emission =>
    { code := { instrs := emission.code.instrs ++ [instr],
                succs := emission.code.succs ++ [[]] },
      cInstr := newInstr }
  connect previousInstr newInstr
  return newInstr

def resume (instr : Nat) : Emit F Unit :=
  modify fun emission => { emission with cInstr := instr }

def format2 (destReg : Reg) (imm22 : Word) : Emit F Nat :=
  append (.sethi destReg imm22)

def format3 (cond : Cond) : Emit F Nat :=
  append (.branch cond)

def format5 (op : Op) (destReg srcReg : Reg) (simm13 : Word) : Emit F Nat :=
  append (.alu op destReg srcReg (.imm simm13))

def load5 (width : Width) (destReg srcReg : Reg) (simm13 : Word) : Emit F Nat :=
  append (.load width destReg srcReg (.imm simm13))

def format6 (op : Op) (destReg srcReg1 srcReg2 : Reg) : Emit F Nat :=
  append (.alu op destReg srcReg1 (.reg srcReg2))

def format8 (width : Width) (srcReg2 srcReg1 : Reg) (simm13 : Word) : Emit F Nat :=
  append (.store width srcReg2 srcReg1 (.imm simm13))

def build {α : Type} (emit : Emit F α) (e : Emission F) : α × Emission F :=
  emit.run e

section Build

variable {α β : Type} (e : Emission F)

@[simp] theorem build_pure (a : α) : (pure a : Emit F α).build e = (a, e) := (rfl)

@[simp] theorem build_bind (emit : Emit F α) (next : α → Emit F β) :
    (emit >>= next).build e = (next (emit.build e).1).build (emit.build e).2 := (rfl)

@[simp] theorem build_map (emit : Emit F α) (f : α → β) :
    (f <$> emit).build e = (f (emit.build e).1, (emit.build e).2) := (rfl)

@[simp] theorem build_connect (previousInstr newInstr : Nat) :
    (connect previousInstr newInstr : Emit F Unit).build e =
      ((), ⟨⟨e.code.instrs, e.code.succs.modify previousInstr (· ++ [newInstr])⟩, e.cInstr⟩) := (rfl)

@[simp] theorem build_resume (instr : Nat) :
    (resume instr : Emit F Unit).build e = ((), ⟨e.code, instr⟩) := (rfl)

@[simp] theorem build_append (instr : Instr Reg F) :
    (append instr).build e =
      (e.code.instrs.length,
        ⟨⟨e.code.instrs ++ [instr],
          (e.code.succs ++ [[]]).modify e.cInstr (· ++ [e.code.instrs.length])⟩,
        e.code.instrs.length⟩) := (rfl)

end Build

/-- What is emitted behind `p_instr`, the first instruction. -/
def emission {α : Type} (emit : Emit F α) : Emission F :=
  (emit.build ⟨⟨[.nop], [[]]⟩, 0⟩).2

/-- From `p_instr` the code goes to what is appended behind `c_instr`. -/
def Runs {α : Type} (emit : Emit F α) (environment : Environment F) (s s' : State Reg F) : Prop :=
  (emission emit).code.Ends environment 0 s (.left (emission emit).cInstr 0 s')

end Emit

structure Preserves (dests : List Reg) (s s' : State Reg F) : Prop where
  mem : s'.mem = s.mem
  calls : s'.calls = s.calls
  doubles : s'.doubles = s.doubles
  read : ∀ r, r ∉ dests → (∀ a, r ≠ Reg.it a) → s'.read r = s.read r

namespace Preserves

variable {dests dests' : List Reg} {s s' s'' : State Reg F}

theorem trans (first : Preserves dests s s') (second : Preserves dests s' s'') :
    Preserves dests s s'' where
  mem := second.mem.trans first.mem
  calls := second.calls.trans first.calls
  doubles := second.doubles.trans first.doubles
  read r other temporary := (second.read r other temporary).trans (first.read r other temporary)

theorem mono (kept : Preserves dests s s') (more : dests ⊆ dests') : Preserves dests' s s' where
  mem := kept.mem
  calls := kept.calls
  doubles := kept.doubles
  read r other := kept.read r fun member => other (more member)

end Preserves

end LaTTe.Sequences
