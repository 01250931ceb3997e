import LaTTe.Bytecodes.Format
import LaTTe.Data.Loop

namespace LaTTe.Bytecodes

open LaTTe.Data
open LaTTe.Translator.Wide (getInt16)

/-! `BA_bytecode_analysis`.  An access outside of an array is `none`. -/

/-- The variables of the analysis: the stack of bytecodes to traverse, and of `binfo` the marks
of join points and of the bytecodes within a `try`. -/
structure Analysis where
  wide : Bool
  tstack : List Nat
  visited : Nat → Bool
  joinPoint : Nat → Bool
  withinTry : Nat → Bool

namespace Analysis

variable (m : Method)

def start : Analysis where
  wide := false
  tstack := []
  visited _ := false
  joinPoint _ := false
  withinTry _ := false

def push (a : Analysis) (pc : Nat) : Option Analysis :=
  if a.tstack.length < m.codelen ∧ pc < m.codelen then
    some { a with tstack := pc :: a.tstack, visited := Function.update a.visited pc true }
  else none

def markTry (a : Analysis) (handler : Handler) : Option Analysis :=
  if handler.startPc ≤ handler.endPc ∧ m.codelen ≤ handler.endPc then none
  else some { a with
    withinTry := fun pc => a.withinTry pc || (handler.startPc ≤ pc && pc ≤ handler.endPc) }

def insertExceptionHandlers (a : Analysis) : Option Analysis :=
  m.exceptionTable.foldlM
    (fun a handler => (a.markTry m handler).bind fun a => a.push m handler.handlerPc) a

def processForNpc (a : Analysis) (npc : Int) : Option Analysis :=
  if 0 ≤ npc ∧ npc < m.codelen then
    if a.visited npc.toNat then
      some { a with joinPoint := Function.update a.joinPoint npc.toNat true }
    else a.push m npc.toNat
  else none

def processForSubroutine (a : Analysis) (addr : Int) : Option Analysis :=
  if 0 ≤ addr ∧ addr < m.codelen then
    if a.visited addr.toNat then some a else a.processForNpc m addr
  else none

def analyseBytecode (a : Analysis) (pc : Nat) : Option Analysis :=
  let len := getOpcodeLen (m.opcode pc)
  match m.kind pc with
  | .ifCond => do
      let a ← a.processForNpc m (pc + len : Nat)
      a.processForNpc m (pc + getInt16 m.code (pc + 1))
  | .goto => a.processForNpc m (pc + getInt16 m.code (pc + 1))
  | .gotoW => a.processForNpc m (pc + getInt32 m.code (pc + 1))
  | .jsr => do
      let a ← a.processForNpc m (pc + len : Nat)
      a.processForSubroutine m (pc + getInt16 m.code (pc + 1))
  | .jsrW => do
      let a ← a.processForNpc m (pc + len : Nat)
      a.processForSubroutine m (pc + getInt32 m.code (pc + 1))
  | .tableswitch => do
      let addr := Method.padded pc
      let size := (getWord32 m.code (addr + 8) - getWord32 m.code (addr + 4) + 1).toInt
      let a ← (List.range size.toNat).reverse.foldlM
        (fun a i => a.processForNpc m (pc + getInt32 m.code (addr + 8 + (i + 1) * 4))) a
      a.processForNpc m (pc + getInt32 m.code addr)
  | .lookupswitch => do
      let addr := Method.padded pc
      let a ← (List.range (getInt32 m.code (addr + 4)).toNat).reverse.foldlM
        (fun a i => a.processForNpc m (pc + getInt32 m.code (addr + 4 + (i + 1) * 8))) a
      a.processForNpc m (pc + getInt32 m.code addr)
  | .return_ | .ret => some a
  | .wide => { a with wide := true }.processForNpc m (pc + len : Nat)
  | .loadOrStore =>
      { a with wide := false }.processForNpc m (pc + len + if a.wide then 1 else 0 : Nat)
  | .iinc =>
      { a with wide := false }.processForNpc m (pc + len + if a.wide then 2 else 0 : Nat)
  | .other => a.processForNpc m (pc + len : Nat)

def step (a : Analysis) : Option Analysis :=
  match a.tstack with
  | [] => none
  | pc :: tstack => { a with tstack := tstack }.analyseBytecode m pc

def bytecodeAnalysis (fuel : Nat) : Option Analysis := do
  let a ← start.insertExceptionHandlers m
  let a ← a.push m 0
  whileLoop (fun a => !a.tstack.isEmpty) (step m) fuel a

end Analysis

/-- The analysis comes to an end without an access outside of its arrays, and every reached
bytecode that is entered in two ways is marked. -/
def Analysed (m : Method) : Prop :=
  ∃ final, (∃ enough, ∀ fuel, enough ≤ fuel →
      Analysis.bytecodeAnalysis m fuel = some final) ∧
    ∀ pc, m.Joined pc → final.joinPoint pc = true

end LaTTe.Bytecodes
