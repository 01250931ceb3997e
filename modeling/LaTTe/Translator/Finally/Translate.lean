import LaTTe.Data.LinkGraph
import LaTTe.Data.Loop
import LaTTe.Translator.FlowGraph

namespace LaTTe.Translator.Finally

open LaTTe.Data (LinkGraph whileLoop)

/-! Translation of the bytecodes of a method into a flow graph.  A subroutine is
translated anew for every `jsr` to it, and then put in the place of that `jsr`. -/

/-- The operand stack of the translation, with `top` entries of `types` in use. -/
structure Operands where
  top : Nat
  types : Nat → VarType

/-- What `save_context` keeps of an operand stack. -/
abbrev Context := List VarType

def Operands.saveContext (ops : Operands) : Context :=
  (List.range ops.top).map ops.types

def restoreContext (context : Context) (types : Nat → VarType) : Operands where
  top := context.length
  types := fun index => context.getD index (types index)

def Operands.push (ops : Operands) (type : VarType) : Operands where
  top := ops.top + 1
  types := Function.update ops.types ops.top type

/-! Bytecodes. -/

/-- Where a bytecode other than `jsr` and `ret` goes on.  A `branch` is what sets
`have_multi_successors`. -/
inductive Flow where
  | next (npc : Nat)
  | branch (npcs : List Nat)
  | stop
  deriving DecidableEq, Repr

/-- `effect` is what the translation of a bytecode does to the operand stack. -/
inductive Bytecode where
  | plain (effect : Operands → Operands) (flow : Flow)
  | jsr (addr : Nat)
  | jsrW (addr : Nat)
  | ret (index : Nat)

namespace Bytecode

def isRet : Bytecode → Bool
  | .ret _ => true
  | _ => false

def subroutine : Bytecode → Option Nat
  | .jsr addr => some addr
  | .jsrW addr => some addr
  | _ => none

def after (pc : Nat) : Bytecode → Nat
  | .jsrW _ => pc + 5
  | _ => pc + 3

def npcs (pc : Nat) : Bytecode → List Nat
  | .plain _ (.next npc) => [npc]
  | .plain _ (.branch npcs) => npcs
  | .plain _ .stop => []
  | .jsr _ => [pc + 3]
  | .jsrW _ => [pc + 5]
  | .ret _ => []

end Bytecode

structure Method where
  code : Nat → Bytecode
  startPc : Nat

/-! The graph. -/

inductive InstrCode where
  | prologue | sequence | gosub | ret
  deriving DecidableEq, Repr

/-- The native instructions of one bytecode.  The types of the operand stack before and
after it stand for the stack variables that these instructions name. -/
structure Instr where
  code : InstrCode
  typesBefore : Context
  typesAfter : Context
  deriving DecidableEq, Repr

/-- `header` and `lastInstr` are set when the block has been translated. -/
structure FinallyBlockInfo where
  headerPc : Nat
  gosub : Nat
  operandStackTop : Nat
  header : Nat
  lastInstr : Option Nat
  deriving DecidableEq, Repr

/-- The array `finallyBlocks` has room for `maxNumOfFinallyBlocks`. -/
structure Cfg where
  size : Nat
  instr : Nat → Instr
  links : LinkGraph Nat
  finallyBlocks : List FinallyBlockInfo
  maxNumOfFinallyBlocks : Nat

namespace Cfg

variable (cfg : Cfg)

def registerInstr (instr : Instr) : Cfg :=
  { cfg with
    size := cfg.size + 1
    instr := Function.update cfg.instr cfg.size instr
    links :=
      { succs := Function.update cfg.links.succs cfg.size []
        preds := Function.update cfg.links.preds cfg.size [] } }

def connectInstruction (pred succ : Nat) : Cfg :=
  { cfg with links := cfg.links.connect pred succ }

def disconnectInstruction (pred succ : Nat) : Cfg :=
  { cfg with links := cfg.links.disconnect pred succ }

def removeInstr (instr : Nat) : Cfg :=
  { cfg with links := cfg.links.bypass instr }

def appendInstr (parent : Nat) (instr : Instr) : Cfg :=
  (cfg.registerInstr instr).connectInstruction parent cfg.size

def registerFinallyBlock (headerPc gosub operandStackTop : Nat) : Cfg :=
  let numOfFinallyBlocks := cfg.finallyBlocks.length
  { cfg with
    finallyBlocks := cfg.finallyBlocks ++ [⟨headerPc, gosub, operandStackTop, 0, none⟩]
    maxNumOfFinallyBlocks :=
      if numOfFinallyBlocks = 0 then 5
      else if numOfFinallyBlocks = cfg.maxNumOfFinallyBlocks then
        cfg.maxNumOfFinallyBlocks * 2
      else cfg.maxNumOfFinallyBlocks }

def setHeader (index header : Nat) : Cfg :=
  { cfg with
    finallyBlocks := cfg.finallyBlocks.modify index fun info => { info with header := header } }

def setLastInstr (index : Nat) (lastInstr : Option Nat) : Cfg :=
  { cfg with
    finallyBlocks :=
      cfg.finallyBlocks.modify index fun info => { info with lastInstr := lastInstr } }

/-- Puts a translated subroutine in the place of its `jsr`.  There need not be a
`ret`. -/
def connectFinallyBlock (index : Nat) : Cfg :=
  match cfg.finallyBlocks[index]? with
  | none => cfg
  | some info =>
      let succ := (cfg.links.succs info.gosub).headD 0
      let entered :=
        (cfg.disconnectInstruction info.gosub succ).connectInstruction info.gosub info.header
      let left :=
        match info.lastInstr with
        | none => entered
        | some lastInstr => entered.connectInstruction lastInstr succ
      left.removeInstr info.gosub

end Cfg

/-! Traversal of the bytecodes. -/

structure Pending where
  parent : Nat
  pc : Nat
  context : Context
  deriving DecidableEq, Repr

/-- The variables of the translator.  `current` is the last instruction and the next
bytecode while no context has to be loaded. -/
structure Traversal where
  cfg : Cfg
  translatedInstrs : Nat → Option Nat
  traverseStack : List Pending
  current : Option (Nat × Nat)
  ops : Operands
  lastRetTranslateInstr : Option Nat

namespace Traversal

variable (m : Method) (t : Traversal)

/-- The instruction for the bytecode at `pc`, and the operand stack after it. -/
def emit (code : InstrCode) (pc parent : Nat) (ops : Operands) : Traversal :=
  { t with
    cfg := t.cfg.appendInstr parent ⟨code, t.ops.saveContext, ops.saveContext⟩
    translatedInstrs := Function.update t.translatedInstrs pc (some t.cfg.size)
    current := none
    ops := ops }

/-- `CFGGen_process_and_verify_for_npc` for a bytecode with several successors. -/
def pushAll (parent : Nat) (npcs : List Nat) : Traversal :=
  { t with
    traverseStack := npcs.foldl
      (fun stack npc => ⟨parent, npc, t.ops.saveContext⟩ :: stack) t.traverseStack }

def translateJsr (pc parent addr : Nat) : Traversal :=
  let emitted := t.emit .gosub pc parent t.ops
  { emitted with
    cfg := emitted.cfg.registerFinallyBlock addr t.cfg.size t.ops.top
    current := some (t.cfg.size, (m.code pc).after pc) }

def translateBytecode (pc parent : Nat) : Traversal :=
  match m.code pc with
  | .plain effect flow =>
      let emitted := t.emit .sequence pc parent (effect t.ops)
      match flow with
      | .next npc => { emitted with current := some (t.cfg.size, npc) }
      | .branch npcs => emitted.pushAll t.cfg.size npcs
      | .stop => emitted
  | .jsr addr => t.translateJsr m pc parent addr
  | .jsrW addr => t.translateJsr m pc parent addr
  | .ret _ =>
      { t.emit .ret pc parent t.ops with lastRetTranslateInstr := some t.cfg.size }

def visit (parent pc : Nat) : Traversal :=
  match t.translatedInstrs pc with
  | some instr => { t with cfg := t.cfg.connectInstruction parent instr, current := none }
  | none => t.translateBytecode m pc parent

def round : Traversal :=
  match t.current with
  | some (lastInstr, nextPc) => t.visit m lastInstr nextPc
  | none =>
      match t.traverseStack with
      | [] => t
      | entry :: rest =>
          { t with
            traverseStack := rest
            ops := restoreContext entry.context t.ops.types }.visit m entry.parent entry.pc

def unfinished : Bool :=
  t.current.isSome || !t.traverseStack.isEmpty

def traverse (fuel : Nat) : Option Traversal :=
  whileLoop unfinished (fun t => some (t.round m)) fuel t

end Traversal

/-- What the translation of a method has come to.  `tables` has for the main flow, and
then for each finally block, which instructions its bytecodes became. -/
structure Translation where
  cfg : Cfg
  ops : Operands
  tables : List (Nat → Option Nat)

variable (m : Method)

def startTraverse (cfg : Cfg) (ops : Operands) (parent pc : Nat) : Traversal where
  cfg := cfg
  translatedInstrs := fun _ => none
  traverseStack := [⟨parent, pc, ops.saveContext⟩]
  current := none
  ops := ops
  lastRetTranslateInstr := none

def emptyCfg : Cfg where
  size := 0
  instr := fun _ => ⟨.prologue, [], []⟩
  links := ⟨fun _ => [], fun _ => []⟩
  finallyBlocks := []
  maxNumOfFinallyBlocks := 0

def translateMainFlow (ops : Operands) (fuel : Nat) : Option Translation := do
  let cfg := emptyCfg.registerInstr ⟨.prologue, ops.saveContext, ops.saveContext⟩
  let t ← (startTraverse cfg ops 0 m.startPc).traverse m fuel
  some ⟨t.cfg, t.ops, [t.translatedInstrs]⟩

namespace Translation

variable (tr : Translation)

def finallyPrologue (index : Nat) (ops : Operands) : Cfg :=
  let instr : Instr := ⟨.prologue, ops.saveContext, ops.saveContext⟩
  let header := tr.cfg.size
  ((tr.cfg.registerInstr instr).setHeader index header).appendInstr header instr

/-- The write of `lastInstr` is made through a pointer from before the traversal.  It is
lost when the array was copied in the meantime. -/
def recordLastInstr (index : Nat) (t : Traversal) : Cfg :=
  if t.cfg.maxNumOfFinallyBlocks = tr.cfg.maxNumOfFinallyBlocks then
    t.cfg.setLastInstr index t.lastRetTranslateInstr
  else
    t.cfg

def translateFinallyBlock (index : Nat) (fuel : Nat) : Option Translation := do
  let info ← tr.cfg.finallyBlocks[index]?
  let ops : Operands := { tr.ops with top := info.operandStackTop }
  let cfg := tr.finallyPrologue index ops
  let t ← (startTraverse cfg (ops.push .ref) (tr.cfg.size + 1) info.headerPc).traverse m fuel
  some ⟨tr.recordLastInstr index t, t.ops, tr.tables ++ [t.translatedInstrs]⟩

def nextFinallyBlock (fuel : Nat) : Option Translation := do
  let index := tr.tables.length - 1
  let next ← tr.translateFinallyBlock m index fuel
  some { next with cfg := next.cfg.connectFinallyBlock index }

def unfinished : Bool :=
  tr.tables.length ≤ tr.cfg.finallyBlocks.length

end Translation

/-- The method from an operand stack on, as far as `fuel` rounds of each loop go. -/
def translateOneMethod (ops : Operands) (fuel : Nat) : Option Translation := do
  let main ← translateMainFlow m ops fuel
  whileLoop Translation.unfinished (·.nextFinallyBlock m fuel) fuel main

end LaTTe.Translator.Finally
