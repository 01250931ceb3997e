import Mathlib.Data.Set.Basic
import LaTTe.Data.Transition

namespace LaTTe.Translator.Wide

open LaTTe.Data

/-! The flag `wide` in the two passes over the bytecodes of a method. -/

/-- The opcodes that the flag concerns.  The widened opcodes are those that the interpreter
puts in the place of `wide`. -/
inductive Opcode where
  | iload | lload | fload | dload | aload
  | istore | lstore | fstore | dstore | astore
  | iinc | ret | wide
  | widened (opcode : Nat)
  | other (opcode : Nat)
  deriving DecidableEq, Repr

namespace Opcode

def ofByte (byte : BitVec 8) : Opcode :=
  match byte.toNat with
  | 21 => iload
  | 22 => lload
  | 23 => fload
  | 24 => dload
  | 25 => aload
  | 54 => istore
  | 55 => lstore
  | 56 => fstore
  | 57 => dstore
  | 58 => astore
  | 132 => iinc
  | 169 => ret
  | 196 => wide
  | opcode => if 211 ≤ opcode ∧ opcode ≤ 222 then widened opcode else other opcode

def isLoadOrStore : Opcode → Bool
  | iload | lload | fload | dload | aload | istore | lstore | fstore | dstore | astore => true
  | _ => false

def isWide : Opcode → Bool
  | wide | widened _ => true
  | _ => false

end Opcode

/-! Operands in the code. -/

abbrev Bytes := Nat → BitVec 8

def getUint8 (bcode : Bytes) (pc : Nat) : Nat := (bcode pc).toNat

def getInt8 (bcode : Bytes) (pc : Nat) : Int := (bcode pc).toInt

def getUint16 (bcode : Bytes) (pc : Nat) : Nat := (bcode pc ++ bcode (pc + 1)).toNat

def getInt16 (bcode : Bytes) (pc : Nat) : Int := (bcode pc ++ bcode (pc + 1)).toInt

/-- Where the translation goes on; a `branch` is what sets `have_multi_successors`. -/
inductive Flow where
  | next (npc : Nat)
  | branch (npcs : List Nat)
  | stop
  deriving DecidableEq, Repr

def Flow.npcs : Flow → List Nat
  | next npc => [npc]
  | branch npcs => npcs
  | stop => []

/-- A method.  Where the bytecodes without a prefix go on does not depend on the flag, so that
the passes' own decoding of them is a field; `jsr` also has a subroutine. -/
structure Bytecodes where
  code : Bytes
  startPc : Nat
  handlerPcs : List Nat
  flow : Nat → Flow
  subroutine : Nat → Option Nat
  npcs : Nat → List Nat

def Bytecodes.opcode (m : Bytecodes) (pc : Nat) : Opcode := Opcode.ofByte (m.code pc)

/-- A method in the class file format: `starts` are the positions of its bytecodes, and control
goes from one to another.  The opcode behind a `wide` is not one of them. -/
structure Method extends Bytecodes where
  starts : Set Nat
  start_mem : startPc ∈ starts
  zero_mem : 0 ∈ starts
  handler_mem : ∀ pc ∈ handlerPcs, pc ∈ starts
  flow_mem : ∀ pc ∈ starts, ∀ npc ∈ (flow pc).npcs, npc ∈ starts
  subroutine_mem : ∀ pc ∈ starts, ∀ npc ∈ subroutine pc, npc ∈ starts
  npcs_mem : ∀ pc ∈ starts, ∀ npc ∈ npcs pc, npc ∈ starts
  loadOrStore_mem : ∀ pc ∈ starts, (toBytecodes.opcode pc).isLoadOrStore → pc + 2 ∈ starts
  iinc_mem : ∀ pc ∈ starts, toBytecodes.opcode pc = .iinc → pc + 3 ∈ starts
  wide_mem : ∀ pc ∈ starts, (toBytecodes.opcode pc).isWide → pc + 1 ∉ starts ∧
    ((toBytecodes.opcode (pc + 1)).isLoadOrStore ∧ pc + 4 ∈ starts ∨
      toBytecodes.opcode (pc + 1) = .iinc ∧ pc + 6 ∈ starts ∨
      toBytecodes.opcode (pc + 1) = .ret)

/-! One bytecode. -/

/-- What a pass makes of a bytecode: its index and constant, where it goes on and the flag
after it. -/
structure Decoded where
  pc : Nat
  index : Nat
  constant : Int
  flow : Flow
  wide : Bool
  deriving DecidableEq, Repr

namespace Bytecodes

variable (m : Bytecodes)

def translateLocal (wide : Bool) (pc : Nat) : Decoded :=
  if wide then ⟨pc, getUint16 m.code (pc + 1), 0, .next (pc + 3), false⟩
  else ⟨pc, getUint8 m.code (pc + 1), 0, .next (pc + 2), wide⟩

def translateIinc (wide : Bool) (pc : Nat) : Decoded :=
  if wide then
    ⟨pc, getUint16 m.code (pc + 1), getInt16 m.code (pc + 3), .next (pc + 5), false⟩
  else
    ⟨pc, getUint8 m.code (pc + 1), getInt8 m.code (pc + 2), .next (pc + 3), wide⟩

def translateRet (wide : Bool) (pc : Nat) : Decoded :=
  ⟨pc, getUint8 m.code (pc + 1), 0, .stop, wide⟩

def translateWide (pc : Nat) : Decoded := ⟨pc, 0, 0, .next (pc + 1), true⟩

def translateBytecode (wide : Bool) (pc : Nat) : Decoded :=
  match m.opcode pc with
  | .iload | .lload | .fload | .dload | .aload
  | .istore | .lstore | .fstore | .dstore | .astore => m.translateLocal wide pc
  | .iinc => m.translateIinc wide pc
  | .ret => m.translateRet wide pc
  | .wide | .widened _ => translateWide pc
  | .other _ => ⟨pc, 0, 0, m.flow pc, wide⟩

def finallyBlock (pc : Nat) : Option Nat :=
  match m.opcode pc with
  | .other _ => m.subroutine pc
  | _ => none

/-- The bytecode whose instruction is recorded: loads and stores behind a `wide` are recorded
for the `wide`. -/
def recordedPc (wide : Bool) (pc : Nat) : Nat :=
  if wide ∧ (m.opcode pc).isLoadOrStore then pc - 1 else pc

/-- `BA_bytecode_analysis` on one bytecode. -/
def analyseBytecode (wide : Bool) (pc : Nat) : Decoded :=
  match m.opcode pc with
  | .iload | .lload | .fload | .dload | .aload
  | .istore | .lstore | .fstore | .dstore | .astore =>
      ⟨pc, 0, 0, .next (if wide then pc + 2 + 1 else pc + 2), false⟩
  | .iinc => ⟨pc, 0, 0, .next (if wide then pc + 3 + 2 else pc + 3), false⟩
  | .ret => ⟨pc, 0, 0, .stop, wide⟩
  | .wide | .widened _ => ⟨pc, 0, 0, .next (pc + 1), true⟩
  | .other _ => ⟨pc, 0, 0, .branch (m.npcs pc), wide⟩

end Bytecodes

/-! The translation. -/

/-- The variables of the translator.  `current` is the next bytecode while no context has to be
loaded; `index` counts the finally blocks that have been begun.  `translated` is the history. -/
structure Translation where
  wide : Bool
  translatedInstrs : Nat → Bool
  traverseStack : List Nat
  current : Option Nat
  finallyBlocks : List Nat
  index : Nat
  translated : List Decoded

namespace Translation

variable (m : Bytecodes)

/-- `translate_one_method` in front of the main flow. -/
def start : Translation where
  wide := false
  translatedInstrs _ := false
  traverseStack := [m.startPc]
  current := none
  finallyBlocks := []
  index := 0
  translated := []

/-- `CFGGen_process_and_verify_for_npc`. -/
def processForNpc (t : Translation) : Flow → Translation
  | .next npc => { t with current := some npc }
  | .branch npcs => { t with current := none, traverseStack := npcs.reverse ++ t.traverseStack }
  | .stop => { t with current := none }

def translate (t : Translation) (pc : Nat) : Translation :=
  let decoded := m.translateBytecode t.wide pc
  processForNpc
    { t with
      wide := decoded.wide
      translatedInstrs := Function.update t.translatedInstrs (m.recordedPc t.wide pc) true
      finallyBlocks := t.finallyBlocks ++ (m.finallyBlock pc).toList
      translated := decoded :: t.translated } decoded.flow

def step (t : Translation) : Option Translation :=
  match t.current with
  | some pc =>
      if t.translatedInstrs pc then some { t with current := none }
      else some (t.translate m pc)
  | none =>
      match t.traverseStack with
      | pc :: traverseStack => some { t with current := some pc, traverseStack := traverseStack }
      | [] =>
          (t.finallyBlocks[t.index]?).map fun headerPc =>
            { t with
              translatedInstrs := fun _ => false
              current := some headerPc
              index := t.index + 1 }

end Translation

/-! The analysis. -/

/-- The variables of `BA_bytecode_analysis`. -/
structure Analysis where
  wide : Bool
  tstack : List Nat
  visited : Nat → Bool
  analysed : List Decoded

namespace Analysis

variable (m : Bytecodes)

def push (a : Analysis) (pc : Nat) : Analysis :=
  { a with tstack := pc :: a.tstack, visited := Function.update a.visited pc true }

def start : Analysis :=
  (m.handlerPcs ++ [0]).foldl push ⟨false, [], fun _ => false, []⟩

def processForNpc (a : Analysis) (npc : Nat) : Analysis :=
  if a.visited npc then a else a.push npc

def analyse (a : Analysis) (pc : Nat) : Analysis :=
  let decoded := m.analyseBytecode a.wide pc
  decoded.flow.npcs.foldl processForNpc
    { a with wide := decoded.wide, analysed := decoded :: a.analysed }

def step (a : Analysis) : Option Analysis :=
  match a.tstack with
  | [] => none
  | pc :: tstack => some ({ a with tstack := tstack }.analyse m pc)

end Analysis

/-! What the class file format says. -/

namespace Method

variable (m : Method)

/-- The opcode at `pc` stands behind a `wide`. -/
def Prefixed (pc : Nat) : Prop :=
  ∃ before ∈ m.starts, (m.opcode before).isWide ∧ pc = before + 1

structure Consumed (decoded : Decoded) : Prop where
  wide : (m.opcode decoded.pc).isWide = false → decoded.wide = false
  loadOrStore : (m.opcode decoded.pc).isLoadOrStore →
    (m.Prefixed decoded.pc → decoded.flow = .next (decoded.pc + 3)) ∧
      (¬ m.Prefixed decoded.pc → decoded.flow = .next (decoded.pc + 2))
  iinc : m.opcode decoded.pc = .iinc →
    (m.Prefixed decoded.pc → decoded.flow = .next (decoded.pc + 5)) ∧
      (¬ m.Prefixed decoded.pc → decoded.flow = .next (decoded.pc + 3))

/-- The operands have two bytes behind a `wide` and one elsewhere. -/
structure Right (decoded : Decoded) : Prop extends m.Consumed decoded where
  index : (m.opcode decoded.pc).isLoadOrStore ∨ m.opcode decoded.pc = .iinc ∨
      m.opcode decoded.pc = .ret →
    (m.Prefixed decoded.pc → decoded.index = getUint16 m.code (decoded.pc + 1)) ∧
      (¬ m.Prefixed decoded.pc → decoded.index = getUint8 m.code (decoded.pc + 1))
  constant : m.opcode decoded.pc = .iinc →
    (m.Prefixed decoded.pc → decoded.constant = getInt16 m.code (decoded.pc + 3)) ∧
      (¬ m.Prefixed decoded.pc → decoded.constant = getInt8 m.code (decoded.pc + 2))

variable {m} {pc : Nat}

theorem Prefixed.not_mem (behind : m.Prefixed pc) : pc ∉ m.starts := by
  obtain ⟨before, starts, wide, rfl⟩ := behind
  exact (m.wide_mem before starts wide).1

theorem Prefixed.not_other (behind : m.Prefixed pc) (number : Nat) :
    m.opcode pc ≠ .other number := by
  obtain ⟨before, starts, wide, rfl⟩ := behind
  intro other
  obtain ⟨-, ⟨kind, -⟩ | ⟨kind, -⟩ | kind⟩ := m.wide_mem before starts wide
  · rw [other] at kind
    contradiction
  · rw [other] at kind
    contradiction
  · rw [other] at kind
    contradiction

end Method

theorem Opcode.kinds (opcode : Opcode) :
    opcode.isLoadOrStore ∨ opcode = .iinc ∨ opcode = .ret ∨ opcode.isWide ∨
      ∃ number, opcode = .other number := by
  cases opcode with
  | other number => exact .inr (.inr (.inr (.inr ⟨number, rfl⟩)))
  | _ => simp [isLoadOrStore, isWide]

section Bytecode

variable {m : Method} {pc : Nat} {wide : Bool}

theorem translate_loadOrStore (kind : (m.opcode pc).isLoadOrStore) :
    m.translateBytecode wide pc = m.translateLocal wide pc := by
  rw [Bytecodes.translateBytecode]
  cases opcode : m.opcode pc <;> rw [opcode] at kind <;> first | rfl | contradiction

theorem translate_iinc (kind : m.opcode pc = .iinc) :
    m.translateBytecode wide pc = m.translateIinc wide pc := by
  rw [Bytecodes.translateBytecode, kind]

theorem translate_ret (kind : m.opcode pc = .ret) :
    m.translateBytecode wide pc = m.translateRet wide pc := by
  rw [Bytecodes.translateBytecode, kind]

theorem translate_wide (kind : (m.opcode pc).isWide) :
    m.translateBytecode wide pc = Bytecodes.translateWide pc := by
  rw [Bytecodes.translateBytecode]
  cases opcode : m.opcode pc <;> rw [opcode] at kind <;> first | rfl | contradiction

theorem translate_other {number : Nat} (kind : m.opcode pc = .other number) :
    m.translateBytecode wide pc = ⟨pc, 0, 0, m.flow pc, wide⟩ := by
  rw [Bytecodes.translateBytecode, kind]

theorem unlike_loadOrStore {opcode : Opcode} (kind : opcode.isLoadOrStore) :
    opcode.isWide = false ∧ opcode ≠ .iinc ∧ opcode ≠ .ret := by
  cases opcode <;> first | contradiction | exact ⟨rfl, nofun, nofun⟩

theorem unlike_wide {opcode : Opcode} (kind : opcode.isWide) :
    opcode.isLoadOrStore = false ∧ opcode ≠ .iinc ∧ opcode ≠ .ret := by
  cases opcode <;> first | contradiction | exact ⟨rfl, nofun, nofun⟩

theorem translateBytecode_plain (start : pc ∈ m.starts) :
    m.Right (m.translateBytecode false pc) := by
  have plain : ¬ m.Prefixed pc := fun behind => behind.not_mem start
  rcases Opcode.kinds (m.opcode pc) with kind | kind | kind | kind | ⟨number, kind⟩
  · obtain ⟨unwide, uniinc, -⟩ := unlike_loadOrStore kind
    rw [translate_loadOrStore kind]
    constructor
    · constructor <;> simp [Bytecodes.translateLocal, plain, uniinc]
    · simp [Bytecodes.translateLocal, plain]
    · simp [Bytecodes.translateLocal, uniinc]
  · rw [translate_iinc kind]
    constructor
    · constructor <;> simp [Bytecodes.translateIinc, plain, kind, Opcode.isLoadOrStore]
    · simp [Bytecodes.translateIinc, plain]
    · simp [Bytecodes.translateIinc, plain]
  · rw [translate_ret kind]
    constructor
    · constructor <;> simp [Bytecodes.translateRet, kind, Opcode.isLoadOrStore]
    · simp [Bytecodes.translateRet, plain]
    · simp [Bytecodes.translateRet, kind]
  · obtain ⟨unlocal, uniinc, unret⟩ := unlike_wide kind
    rw [translate_wide kind]
    constructor
    · constructor <;> simp [Bytecodes.translateWide, kind, unlocal, uniinc]
    · simp [Bytecodes.translateWide, unlocal, uniinc, unret]
    · simp [Bytecodes.translateWide, uniinc]
  · rw [translate_other kind]
    constructor
    · constructor <;> simp [kind, Opcode.isLoadOrStore]
    · simp [kind, Opcode.isLoadOrStore]
    · simp [kind]

theorem translateBytecode_plain_next (start : pc ∈ m.starts) :
    (m.translateBytecode false pc).wide = (m.opcode pc).isWide ∧
      ((m.opcode pc).isWide = false →
        ∀ npc ∈ (m.translateBytecode false pc).flow.npcs, npc ∈ m.starts) := by
  rcases Opcode.kinds (m.opcode pc) with kind | kind | kind | kind | ⟨number, kind⟩
  · obtain ⟨unwide, -⟩ := unlike_loadOrStore kind
    have next := m.loadOrStore_mem pc start kind
    rw [translate_loadOrStore kind, unwide]
    simpa [Bytecodes.translateLocal, Flow.npcs] using next
  · have next := m.iinc_mem pc start kind
    rw [translate_iinc kind, kind]
    simpa [Bytecodes.translateIinc, Flow.npcs, Opcode.isWide] using next
  · rw [translate_ret kind, kind]
    simp [Bytecodes.translateRet, Flow.npcs, Opcode.isWide]
  · rw [translate_wide kind, kind]
    simp [Bytecodes.translateWide]
  · have next := m.flow_mem pc start
    rw [translate_other kind, kind]
    simpa [Opcode.isWide] using next

theorem translateBytecode_prefixed (behind : m.Prefixed pc) (other : m.opcode pc ≠ .ret) :
    m.Right (m.translateBytecode true pc) ∧ (m.translateBytecode true pc).wide = false ∧
      ∀ npc ∈ (m.translateBytecode true pc).flow.npcs, npc ∈ m.starts := by
  have prefixed := behind
  obtain ⟨before, start, wide, rfl⟩ := behind
  obtain ⟨-, ⟨kind, next⟩ | ⟨kind, next⟩ | kind⟩ := m.wide_mem before start wide
  · obtain ⟨unwide, uniinc, -⟩ := unlike_loadOrStore kind
    rw [translate_loadOrStore kind]
    refine ⟨?_, rfl, by simpa [Bytecodes.translateLocal, Flow.npcs] using next⟩
    constructor
    · constructor <;> simp [Bytecodes.translateLocal, prefixed, uniinc]
    · simp [Bytecodes.translateLocal, prefixed]
    · simp [Bytecodes.translateLocal, uniinc]
  · rw [translate_iinc kind]
    refine ⟨?_, rfl, by simpa [Bytecodes.translateIinc, Flow.npcs] using next⟩
    constructor
    · constructor <;> simp [Bytecodes.translateIinc, prefixed, kind, Opcode.isLoadOrStore]
    · simp [Bytecodes.translateIinc, prefixed]
    · simp [Bytecodes.translateIinc, prefixed]
  · contradiction

theorem translateBytecode_ret (kind : m.opcode pc = .ret) :
    ¬ m.Right (m.translateBytecode true pc) := by
  rw [translate_ret kind]
  intro right
  have consumed := right.wide (by simp [Bytecodes.translateRet, kind, Opcode.isWide])
  simp [Bytecodes.translateRet] at consumed

end Bytecode

/-! The runs of the translation. -/

namespace Translation

variable {m : Method} {t t' : Translation} {pc : Nat}

inductive Steps (m : Bytecodes) (t : Translation) : Translation → Prop where
  | connect {pc : Nat} (current : t.current = some pc) (known : t.translatedInstrs pc = true) :
      Steps m t { t with current := none }
  | translate {pc : Nat} (current : t.current = some pc) (new : t.translatedInstrs pc = false) :
      Steps m t (t.translate m pc)
  | pop {pc : Nat} {traverseStack : List Nat} (idle : t.current = none)
      (stack : t.traverseStack = pc :: traverseStack) :
      Steps m t { t with current := some pc, traverseStack := traverseStack }
  | enter {headerPc : Nat} (idle : t.current = none) (stack : t.traverseStack = [])
      (block : t.finallyBlocks[t.index]? = some headerPc) :
      Steps m t { t with
        translatedInstrs := fun _ => false
        current := some headerPc
        index := t.index + 1 }

theorem steps_of_step {m : Bytecodes} (taken : t.step m = some t') : Steps m t t' := by
  unfold step at taken
  cases current : t.current with
  | some pc =>
      simp only [current] at taken
      cases known : t.translatedInstrs pc with
      | true =>
          rw [known, if_pos rfl] at taken
          cases taken
          exact .connect current known
      | false =>
          rw [known, if_neg (by decide)] at taken
          cases taken
          exact .translate current known
  | none =>
      simp only [current] at taken
      cases stack : t.traverseStack with
      | cons pc traverseStack =>
          simp only [stack] at taken
          cases taken
          exact .pop current stack
      | nil =>
          simp only [stack] at taken
          obtain ⟨headerPc, block, rfl⟩ := Option.map_eq_some_iff.mp taken
          simpa only [stack] using Steps.enter current stack block

structure Sound (m : Method) (t : Translation) : Prop where
  flagged : t.wide = true → ∃ pc, t.current = some pc ∧ m.Prefixed pc ∧
    t.translatedInstrs (pc - 1) = true ∧ t.translatedInstrs pc = false
  current : t.wide = false → ∀ pc, t.current = some pc → pc ∈ m.starts
  stack : ∀ pc ∈ t.traverseStack, pc ∈ m.starts
  blocks : ∀ pc ∈ t.finallyBlocks, pc ∈ m.starts
  recorded : ∀ pc, t.translatedInstrs pc = true →
    pc ∈ m.starts ∨ m.Prefixed pc ∧ t.translatedInstrs (pc - 1) = true
  right : ∀ decoded ∈ t.translated, m.Right decoded

theorem sound_start (m : Method) : Sound m (start m.toBytecodes) where
  flagged := nofun
  current _ := nofun
  stack pc member := by
    obtain rfl := List.mem_singleton.mp member
    exact m.start_mem
  blocks := nofun
  recorded := nofun
  right := nofun

/-! Where control goes. -/

section Translate

theorem processForNpc_frame (t : Translation) (flow : Flow) :
    (processForNpc t flow).wide = t.wide ∧
      (processForNpc t flow).translatedInstrs = t.translatedInstrs ∧
      (processForNpc t flow).finallyBlocks = t.finallyBlocks ∧
      (processForNpc t flow).translated = t.translated := by
  cases flow <;> exact ⟨rfl, rfl, rfl, rfl⟩

theorem mem_npcs_of_processForNpc {flow : Flow} {npc : Nat}
    (current : (processForNpc t flow).current = some npc) : npc ∈ flow.npcs := by
  cases flow with
  | next npc' =>
      cases current
      exact List.mem_singleton_self _
  | branch npcs => contradiction
  | stop => contradiction

theorem mem_npcs_or_stack_of_processForNpc {flow : Flow} {npc : Nat}
    (member : npc ∈ (processForNpc t flow).traverseStack) :
    npc ∈ flow.npcs ∨ npc ∈ t.traverseStack := by
  cases flow with
  | next npc' => exact .inr member
  | branch npcs => simpa [processForNpc, Flow.npcs] using member
  | stop => exact .inr member

variable (m) (t) (pc)

theorem wide_translate :
    (t.translate m.toBytecodes pc).wide = (m.translateBytecode t.wide pc).wide :=
  (processForNpc_frame _ _).1

theorem translatedInstrs_translate :
    (t.translate m.toBytecodes pc).translatedInstrs =
      Function.update t.translatedInstrs (m.recordedPc t.wide pc) true :=
  (processForNpc_frame _ _).2.1

theorem finallyBlocks_translate :
    (t.translate m.toBytecodes pc).finallyBlocks =
      t.finallyBlocks ++ (m.finallyBlock pc).toList :=
  (processForNpc_frame _ _).2.2.1

theorem translated_translate :
    (t.translate m.toBytecodes pc).translated =
      m.translateBytecode t.wide pc :: t.translated :=
  (processForNpc_frame _ _).2.2.2

theorem current_translate_of_next {npc : Nat}
    (flow : (m.translateBytecode t.wide pc).flow = .next npc) :
    (t.translate m.toBytecodes pc).current = some npc ∧
      (t.translate m.toBytecodes pc).traverseStack = t.traverseStack := by
  unfold Translation.translate
  simp only [flow]
  exact ⟨rfl, rfl⟩

variable {m t pc}

theorem mem_npcs_of_current {npc : Nat}
    (current : (t.translate m.toBytecodes pc).current = some npc) :
    npc ∈ (m.translateBytecode t.wide pc).flow.npcs :=
  mem_npcs_of_processForNpc current

theorem mem_npcs_or_stack {npc : Nat}
    (member : npc ∈ (t.translate m.toBytecodes pc).traverseStack) :
    npc ∈ (m.translateBytecode t.wide pc).flow.npcs ∨ npc ∈ t.traverseStack := by
  have pushed : npc ∈ (processForNpc _ (m.translateBytecode t.wide pc).flow).traverseStack :=
    member
  have going := mem_npcs_or_stack_of_processForNpc pushed
  exact going

end Translate

theorem Sound.finallyBlock_mem (start : pc ∈ m.starts) : ∀ headerPc ∈ m.finallyBlock pc,
    headerPc ∈ m.starts := by
  intro headerPc registered
  unfold Bytecodes.finallyBlock at registered
  split at registered
  · exact m.subroutine_mem pc start headerPc registered
  · contradiction

/-- The opcode that is no `ret` behind a `wide`. -/
def Careful (m : Bytecodes) (t : Translation) : Prop :=
  ¬ (t.wide = true ∧ t.current.map m.opcode = some .ret)

theorem recorded_mono {recorded : Nat → Bool} (pc : Nat) {known : Nat}
    (holds : recorded known = true) : Function.update recorded pc true known = true := by
  by_cases same : known = pc
  · rw [same, Function.update_self]
  · rw [Function.update_of_ne same, holds]

theorem Sound.recorded_update (sound : Sound m t) {recordedPc : Nat}
    (admitted : recordedPc ∈ m.starts ∨
      m.Prefixed recordedPc ∧ t.translatedInstrs (recordedPc - 1) = true) :
    ∀ pc, Function.update t.translatedInstrs recordedPc true pc = true →
      pc ∈ m.starts ∨ m.Prefixed pc ∧
        Function.update t.translatedInstrs recordedPc true (pc - 1) = true := by
  intro pc recorded
  have old : pc ∈ m.starts ∨ m.Prefixed pc ∧ t.translatedInstrs (pc - 1) = true := by
    by_cases same : pc = recordedPc
    · rw [same]
      exact admitted
    · rw [Function.update_of_ne same] at recorded
      exact sound.recorded pc recorded
  exact old.imp_right fun behind => ⟨behind.1, recorded_mono _ behind.2⟩

theorem Sound.behind_new (sound : Sound m t) (start : pc ∈ m.starts)
    (kind : (m.opcode pc).isWide) (new : t.translatedInstrs pc = false) :
    t.translatedInstrs (pc + 1) = false := by
  by_contra known
  rcases sound.recorded (pc + 1) (Bool.not_eq_false _ ▸ known) with member | ⟨-, before⟩
  · exact (m.wide_mem pc start kind).1 member
  · rw [Nat.add_sub_cancel, new] at before
    contradiction

theorem Sound.right_translate (sound : Sound m t)
    (right : m.Right (m.translateBytecode t.wide pc)) :
    ∀ decoded ∈ (t.translate m.toBytecodes pc).translated, m.Right decoded := by
  intro decoded member
  rw [translated_translate] at member
  rcases List.mem_cons.mp member with rfl | member
  · exact right
  · exact sound.right decoded member

theorem Sound.translate_plain (sound : Sound m t) (flag : t.wide = false)
    (start : pc ∈ m.starts) (unwide : (m.opcode pc).isWide = false) :
    Sound m (t.translate m.toBytecodes pc) := by
  have recordedPc : m.recordedPc false pc = pc := if_neg (by simp)
  obtain ⟨wide, next⟩ := translateBytecode_plain_next start
  constructor
  · intro flag'
    rw [wide_translate, flag, wide, unwide] at flag'
    contradiction
  · intro _ npc current
    have going := mem_npcs_of_current current
    rw [flag] at going
    exact next unwide npc going
  · intro npc member
    rcases mem_npcs_or_stack member with going | member
    · rw [flag] at going
      exact next unwide npc going
    · exact sound.stack npc member
  · intro headerPc member
    rw [finallyBlocks_translate, List.mem_append] at member
    rcases member with member | member
    · exact sound.blocks headerPc member
    · exact Sound.finallyBlock_mem start headerPc (Option.mem_toList.mp member)
  · rw [translatedInstrs_translate, flag, recordedPc]
    exact sound.recorded_update (.inl start)
  · exact sound.right_translate (flag ▸ translateBytecode_plain start)

theorem finallyBlock_eq_none (kind : ∀ number, m.opcode pc ≠ .other number) :
    m.finallyBlock pc = none := by
  unfold Bytecodes.finallyBlock
  split
  next number other => exact absurd other (kind number)
  next => rfl

theorem Sound.translate_flag (sound : Sound m t) (flag : t.wide = false)
    (start : pc ∈ m.starts) (kind : (m.opcode pc).isWide) (new : t.translatedInstrs pc = false) :
    Sound m (t.translate m.toBytecodes pc) := by
  have recordedPc : m.recordedPc t.wide pc = pc := if_neg (by simp [flag])
  have flow : (m.translateBytecode t.wide pc).flow = .next (pc + 1) := by
    rw [translate_wide kind]
    rfl
  have wide : (m.translateBytecode t.wide pc).wide = true := by
    rw [translate_wide kind]
    rfl
  obtain ⟨current, stack⟩ := current_translate_of_next m t pc flow
  have block : m.finallyBlock pc = none := finallyBlock_eq_none fun number other => by
    rw [other] at kind
    contradiction
  constructor
  · intro _
    refine ⟨pc + 1, current, ⟨pc, start, kind, rfl⟩, ?_, ?_⟩
    · rw [translatedInstrs_translate, recordedPc, Nat.add_sub_cancel, Function.update_self]
    · rw [translatedInstrs_translate, recordedPc, Function.update_of_ne (by omega)]
      exact sound.behind_new start kind new
  · intro flag'
    rw [wide_translate, wide] at flag'
    contradiction
  · rw [stack]
    exact sound.stack
  · rw [finallyBlocks_translate, block]
    simpa using sound.blocks
  · rw [translatedInstrs_translate, recordedPc]
    exact sound.recorded_update (.inl start)
  · exact sound.right_translate (flag ▸ translateBytecode_plain start)

theorem Sound.translate_prefixed (sound : Sound m t) (flag : t.wide = true)
    (behind : m.Prefixed pc) (before : t.translatedInstrs (pc - 1) = true)
    (other : m.opcode pc ≠ .ret) : Sound m (t.translate m.toBytecodes pc) := by
  obtain ⟨right, wide, next⟩ := translateBytecode_prefixed behind other
  have block : m.finallyBlock pc = none := finallyBlock_eq_none behind.not_other
  constructor
  · intro flag'
    rw [wide_translate, flag, wide] at flag'
    contradiction
  · intro _ npc current
    have going := mem_npcs_of_current current
    rw [flag] at going
    exact next npc going
  · intro npc member
    rcases mem_npcs_or_stack member with going | member
    · rw [flag] at going
      exact next npc going
    · exact sound.stack npc member
  · rw [finallyBlocks_translate, block]
    simpa using sound.blocks
  · rw [translatedInstrs_translate]
    refine sound.recorded_update ?_
    unfold Bytecodes.recordedPc
    split
    · obtain ⟨before, start, -, rfl⟩ := behind
      exact .inl start
    · exact .inr ⟨behind, before⟩
  · exact sound.right_translate (flag ▸ right)

theorem Sound.translate (sound : Sound m t) (careful : Careful m.toBytecodes t)
    (current : t.current = some pc) (new : t.translatedInstrs pc = false) :
    Sound m (t.translate m.toBytecodes pc) := by
  cases flag : t.wide with
  | false =>
      have start := sound.current flag pc current
      cases kind : (m.opcode pc).isWide with
      | false => exact sound.translate_plain flag start kind
      | true => exact sound.translate_flag flag start kind new
  | true =>
      obtain ⟨pc', current', behind, before, -⟩ := sound.flagged flag
      rw [current] at current'
      cases current'
      refine sound.translate_prefixed flag behind before fun kind => careful ⟨flag, ?_⟩
      rw [current, Option.map_some, kind]

theorem Sound.step (sound : Sound m t) (careful : Careful m.toBytecodes t)
    (taken : t.step m.toBytecodes = some t') : Sound m t' := by
  have unflagged (idle : t.current = none) : t.wide = false := by
    by_contra flag
    obtain ⟨pc, current, -⟩ := sound.flagged (Bool.not_eq_false _ ▸ flag)
    rw [idle] at current
    contradiction
  cases steps_of_step taken with
  | @connect pc current known =>
      have flag : t.wide = false := by
        by_contra flag
        obtain ⟨pc', current', -, -, new⟩ := sound.flagged (Bool.not_eq_false _ ▸ flag)
        rw [current] at current'
        cases current'
        rw [known] at new
        contradiction
      exact { sound with
        flagged := fun flag' => by rw [flag] at flag'; contradiction
        current := fun _ => nofun }
  | translate current new => exact sound.translate careful current new
  | pop idle stack =>
      have flag := unflagged idle
      exact { sound with
        flagged := fun flag' => by rw [flag] at flag'; contradiction
        current := fun _ pc current => by
          cases current
          exact sound.stack _ (stack ▸ List.mem_cons_self)
        stack := fun pc member => sound.stack pc (stack ▸ List.mem_cons_of_mem _ member) }
  | enter idle stack block =>
      have flag := unflagged idle
      exact { sound with
        flagged := fun flag' => by rw [flag] at flag'; contradiction
        current := fun _ pc current => by
          cases current
          exact sound.blocks _ (List.mem_of_getElem? block)
        recorded := nofun }

/-- A step that a method without `wide ret` takes. -/
def CarefulStep (m : Bytecodes) (t t' : Translation) : Prop :=
  Careful m t ∧ t.step m = some t'

theorem sound_of_careful
    (run : Relation.ReflTransGen (CarefulStep m.toBytecodes) (start m.toBytecodes) t) :
    Sound m t := by
  induction run with
  | refl => exact sound_start m
  | tail _ taken ih => exact ih.step taken.1 taken.2

theorem translated_step (taken : t.step m.toBytecodes = some t') :
    ∀ decoded ∈ t.translated, decoded ∈ t'.translated := by
  intro decoded member
  cases steps_of_step taken with
  | connect current known => exact member
  | @translate pc current new =>
      rw [translated_translate]
      exact List.mem_cons_of_mem _ member
  | pop idle stack => exact member
  | enter idle stack block => exact member

theorem not_right_of_careless (sound : Sound m t) (careless : ¬ Careful m.toBytecodes t)
    (taken : t.step m.toBytecodes = some t') : ¬ ∀ decoded ∈ t'.translated, m.Right decoded := by
  obtain ⟨flag, opcode⟩ := not_not.mp careless
  obtain ⟨pc, current, -, -, new⟩ := sound.flagged flag
  rw [current, Option.map_some] at opcode
  have kind := Option.some.inj opcode
  intro right
  have step : t' = t.translate m.toBytecodes pc := by
    unfold step at taken
    simp only [current, new, Bool.false_eq_true, if_false] at taken
    exact (Option.some.inj taken).symm
  rw [step, translated_translate, flag] at right
  exact translateBytecode_ret kind (right _ List.mem_cons_self)

theorem right_iff_careful
    (run : Relation.ReflTransGen (fun t t' => t.step m.toBytecodes = some t')
      (start m.toBytecodes) t) :
    (∀ decoded ∈ t.translated, m.Right decoded) ↔
      Relation.ReflTransGen (CarefulStep m.toBytecodes) (start m.toBytecodes) t := by
  constructor
  · induction run with
    | refl => exact fun _ => .refl
    | tail _ taken ih =>
        intro right
        have before := ih fun decoded member => right decoded (translated_step taken decoded member)
        refine before.tail ⟨?_, taken⟩
        by_contra careless
        exact not_right_of_careless (sound_of_careful before) careless taken right
  · exact fun careful => (sound_of_careful careful).right

end Translation

/-! The runs of the analysis. -/

section Analysis

variable {m : Method} {wide : Bool} {pc : Nat}

theorem analyseBytecode_wide :
    (m.analyseBytecode wide pc).wide = (m.translateBytecode wide pc).wide := by
  rw [Bytecodes.analyseBytecode, Bytecodes.translateBytecode]
  cases m.opcode pc <;> first | rfl | (cases wide <;> rfl)

theorem analyseBytecode_flow (kind : ∀ number, m.opcode pc ≠ .other number) :
    (m.analyseBytecode wide pc).flow = (m.translateBytecode wide pc).flow := by
  rw [Bytecodes.analyseBytecode, Bytecodes.translateBytecode]
  cases opcode : m.opcode pc <;>
    first | rfl | (cases wide <;> rfl) | exact absurd opcode (kind _)

theorem consumed_analyse (consumed : m.Consumed (m.translateBytecode wide pc)) :
    m.Consumed (m.analyseBytecode wide pc) := by
  have place : (m.analyseBytecode wide pc).pc = (m.translateBytecode wide pc).pc := by
    rw [Bytecodes.analyseBytecode, Bytecodes.translateBytecode]
    cases m.opcode pc <;> first | rfl | (cases wide <;> rfl)
  have position : (m.translateBytecode wide pc).pc = pc := by
    rw [Bytecodes.translateBytecode]
    cases m.opcode pc <;> first | rfl | (cases wide <;> rfl)
  constructor
  · rw [place, analyseBytecode_wide]
    exact consumed.wide
  · rw [place]
    intro kind
    have flow := consumed.loadOrStore kind
    rw [position] at kind
    rwa [analyseBytecode_flow fun number other => by rw [other] at kind; contradiction]
  · rw [place]
    intro kind
    have flow := consumed.iinc kind
    rw [position] at kind
    rwa [analyseBytecode_flow fun number other => by rw [other] at kind; contradiction]

end Analysis

namespace Analysis

variable {m : Method} {a a' : Analysis} {pc : Nat}

theorem processForNpc_frame (npcs : List Nat) (a : Analysis) :
    (npcs.foldl processForNpc a).wide = a.wide ∧
      (npcs.foldl processForNpc a).analysed = a.analysed ∧
      ∀ npc ∈ (npcs.foldl processForNpc a).tstack, npc ∈ npcs ∨ npc ∈ a.tstack := by
  induction npcs generalizing a with
  | nil => exact ⟨rfl, rfl, fun _ => .inr⟩
  | cons npc npcs ih =>
      have once : (processForNpc a npc).wide = a.wide ∧
          (processForNpc a npc).analysed = a.analysed ∧
          ∀ npc' ∈ (processForNpc a npc).tstack, npc' = npc ∨ npc' ∈ a.tstack := by
        unfold processForNpc
        split
        · exact ⟨rfl, rfl, fun _ => .inr⟩
        · exact ⟨rfl, rfl, fun _ => List.mem_cons.mp⟩
      obtain ⟨wide, analysed, pending⟩ := ih (processForNpc a npc)
      refine ⟨wide.trans once.1, analysed.trans once.2.1, fun npc' member => ?_⟩
      rcases pending npc' member with later | earlier
      · exact .inl (List.mem_cons_of_mem _ later)
      · rcases once.2.2 npc' earlier with rfl | old
        · exact .inl List.mem_cons_self
        · exact .inr old

theorem start_frame (pcs : List Nat) (a : Analysis) :
    (pcs.foldl push a).wide = a.wide ∧ (pcs.foldl push a).analysed = a.analysed ∧
      ∀ pc ∈ (pcs.foldl push a).tstack, pc ∈ pcs ∨ pc ∈ a.tstack := by
  induction pcs generalizing a with
  | nil => exact ⟨rfl, rfl, fun _ => .inr⟩
  | cons first pcs ih =>
      obtain ⟨wide, analysed, pending⟩ := ih (a.push first)
      refine ⟨wide, analysed, fun pc member => ?_⟩
      rcases pending pc member with later | earlier
      · exact .inl (List.mem_cons_of_mem _ later)
      · rcases List.mem_cons.mp earlier with rfl | old
        · exact .inl List.mem_cons_self
        · exact .inr old

structure Sound (m : Method) (a : Analysis) : Prop where
  flagged : a.wide = true → ∃ pc tstack, a.tstack = pc :: tstack ∧ m.Prefixed pc ∧
    ∀ npc ∈ tstack, npc ∈ m.starts
  stack : a.wide = false → ∀ pc ∈ a.tstack, pc ∈ m.starts
  right : ∀ decoded ∈ a.analysed, m.Consumed decoded

/-- No `ret` behind a `wide`, and no `wide` whose opcode has been visited. -/
def Careful (m : Bytecodes) (a : Analysis) : Prop :=
  ∀ pc ∈ a.tstack.head?, (a.wide = true → m.opcode pc ≠ .ret) ∧
    ((m.opcode pc).isWide = true → a.visited (pc + 1) = false)

theorem sound_start (m : Method) : Sound m (start m.toBytecodes) := by
  obtain ⟨wide, analysed, pending⟩ :=
    start_frame (m.handlerPcs ++ [0]) ⟨false, [], fun _ => false, []⟩
  constructor
  · intro flag
    rw [start, wide] at flag
    contradiction
  · intro _ pc member
    rcases pending pc member with listed | nowhere
    · rcases List.mem_append.mp listed with handler | first
      · exact m.handler_mem pc handler
      · obtain rfl := List.mem_singleton.mp first
        exact m.zero_mem
    · contradiction
  · rw [start, analysed]
    exact nofun

section Analyse

variable (m) (a) (pc)

theorem wide_analyse :
    (a.analyse m.toBytecodes pc).wide = (m.translateBytecode a.wide pc).wide :=
  (processForNpc_frame _ _).1.trans analyseBytecode_wide

theorem analysed_analyse :
    (a.analyse m.toBytecodes pc).analysed = m.analyseBytecode a.wide pc :: a.analysed :=
  (processForNpc_frame _ _).2.1

variable {m a pc}

theorem mem_npcs_or_tstack {npc : Nat} (member : npc ∈ (a.analyse m.toBytecodes pc).tstack) :
    npc ∈ (m.analyseBytecode a.wide pc).flow.npcs ∨ npc ∈ a.tstack := by
  have going := (processForNpc_frame (m.analyseBytecode a.wide pc).flow.npcs _).2.2 npc member
  exact going

theorem Sound.right_analyse (sound : ∀ decoded ∈ a.analysed, m.Consumed decoded)
    (right : m.Right (m.translateBytecode a.wide pc)) :
    ∀ decoded ∈ (a.analyse m.toBytecodes pc).analysed, m.Consumed decoded := by
  intro decoded member
  rw [analysed_analyse] at member
  rcases List.mem_cons.mp member with rfl | member
  · exact consumed_analyse right.toConsumed
  · exact sound decoded member

end Analyse

theorem Sound.analyse_plain (flag : a.wide = false) (start : pc ∈ m.starts)
    (unwide : (m.opcode pc).isWide = false) (pending : ∀ npc ∈ a.tstack, npc ∈ m.starts)
    (right : ∀ decoded ∈ a.analysed, m.Consumed decoded) :
    Sound m (a.analyse m.toBytecodes pc) := by
  obtain ⟨wide, next⟩ := translateBytecode_plain_next start
  have going : ∀ npc ∈ (m.analyseBytecode a.wide pc).flow.npcs, npc ∈ m.starts := by
    intro npc going
    rcases Opcode.kinds (m.opcode pc) with kind | kind | kind | kind | ⟨number, kind⟩
    · rw [analyseBytecode_flow fun number other => by rw [other] at kind; contradiction,
        flag] at going
      exact next unwide npc going
    · rw [analyseBytecode_flow fun number other => by rw [other] at kind; contradiction,
        flag] at going
      exact next unwide npc going
    · rw [analyseBytecode_flow fun number other => by rw [other] at kind; contradiction,
        flag] at going
      exact next unwide npc going
    · rw [kind] at unwide
      contradiction
    · rw [Bytecodes.analyseBytecode, kind] at going
      exact m.npcs_mem pc start npc going
  constructor
  · intro flag'
    rw [wide_analyse, flag, wide, unwide] at flag'
    contradiction
  · intro _ npc member
    rcases mem_npcs_or_tstack member with next | old
    · exact going npc next
    · exact pending npc old
  · exact Sound.right_analyse right (flag ▸ translateBytecode_plain start)

theorem Sound.analyse_flag (flag : a.wide = false) (start : pc ∈ m.starts)
    (kind : (m.opcode pc).isWide) (unvisited : a.visited (pc + 1) = false)
    (pending : ∀ npc ∈ a.tstack, npc ∈ m.starts)
    (right : ∀ decoded ∈ a.analysed, m.Consumed decoded) :
    Sound m (a.analyse m.toBytecodes pc) := by
  have flow : (m.analyseBytecode a.wide pc).flow = .next (pc + 1) := by
    rw [analyseBytecode_flow fun number other => by rw [other] at kind; contradiction,
      translate_wide kind]
    rfl
  have wide : (m.translateBytecode a.wide pc).wide = true := by
    rw [translate_wide kind]
    rfl
  have stack : (a.analyse m.toBytecodes pc).tstack = (pc + 1) :: a.tstack := by
    unfold Analysis.analyse
    simp only [flow, Flow.npcs, List.foldl_cons, List.foldl_nil, processForNpc, unvisited,
      Bool.false_eq_true, if_false]
    rfl
  constructor
  · exact fun _ => ⟨pc + 1, a.tstack, stack, ⟨pc, start, kind, rfl⟩, pending⟩
  · intro flag'
    rw [wide_analyse, wide] at flag'
    contradiction
  · exact Sound.right_analyse right (flag ▸ translateBytecode_plain start)

theorem Sound.analyse_prefixed (flag : a.wide = true) (behind : m.Prefixed pc)
    (other : m.opcode pc ≠ .ret) (pending : ∀ npc ∈ a.tstack, npc ∈ m.starts)
    (right : ∀ decoded ∈ a.analysed, m.Consumed decoded) :
    Sound m (a.analyse m.toBytecodes pc) := by
  obtain ⟨right', wide, next⟩ := translateBytecode_prefixed behind other
  constructor
  · intro flag'
    rw [wide_analyse, flag, wide] at flag'
    contradiction
  · intro _ npc member
    rcases mem_npcs_or_tstack member with going | old
    · rw [analyseBytecode_flow behind.not_other, flag] at going
      exact next npc going
    · exact pending npc old
  · exact Sound.right_analyse right (flag ▸ right')

theorem Sound.step (sound : Sound m a) (careful : Careful m.toBytecodes a)
    (taken : a.step m.toBytecodes = some a') : Sound m a' := by
  unfold Analysis.step at taken
  cases stack : a.tstack with
  | nil =>
      simp only [stack] at taken
      contradiction
  | cons pc tstack =>
      simp only [stack] at taken
      cases taken
      obtain ⟨unret, unvisited⟩ := careful pc (by rw [stack]; rfl)
      cases flag : a.wide with
      | false =>
          have listed := sound.stack flag
          rw [stack] at listed
          have start := listed pc List.mem_cons_self
          have pending := fun npc member => listed npc (List.mem_cons_of_mem _ member)
          cases kind : (m.opcode pc).isWide with
          | false => exact Sound.analyse_plain rfl start kind pending sound.right
          | true => exact Sound.analyse_flag rfl start kind (unvisited kind) pending sound.right
      | true =>
          obtain ⟨pc', tstack', stack', behind, pending⟩ := sound.flagged flag
          rw [stack] at stack'
          cases stack'
          exact Sound.analyse_prefixed rfl behind (unret flag) pending sound.right

/-- A step without a `wide ret` and without a repeated handler. -/
def CarefulStep (m : Bytecodes) (a a' : Analysis) : Prop :=
  Careful m a ∧ a.step m = some a'

theorem sound_of_careful
    (run : Relation.ReflTransGen (CarefulStep m.toBytecodes) (start m.toBytecodes) a) :
    Sound m a := by
  induction run with
  | refl => exact sound_start m
  | tail _ taken ih => exact ih.step taken.1 taken.2

end Analysis

/-- In every run whose steps come by no `ret` behind a `wide`, and for the analysis by no `wide`
that is the handler of two entries of the exception table, the flag is false after each bytecode
but `wide`, and the operands are read in the size that the prefix says. -/
theorem wide_flag_right_in_careful_runs (m : Method) :
    (∀ t, Relation.ReflTransGen (fun t t' => t.step m.toBytecodes = some t')
        (Translation.start m.toBytecodes) t →
      ((∀ decoded ∈ t.translated, m.Right decoded) ↔
        Relation.ReflTransGen (Translation.CarefulStep m.toBytecodes)
          (Translation.start m.toBytecodes) t)) ∧
      ∀ a, Relation.ReflTransGen (Analysis.CarefulStep m.toBytecodes)
          (Analysis.start m.toBytecodes) a →
        ∀ decoded ∈ a.analysed, m.Consumed decoded :=
  ⟨fun _ run => Translation.right_iff_careful run,
    fun _ careful => (Analysis.sound_of_careful careful).right⟩

def wideLoad : Method where
  code pc := [196, 21, 1, 44, 172].getD pc 0
  startPc := 0
  handlerPcs := []
  flow _ := .stop
  subroutine _ := none
  npcs _ := []
  starts := {pc | pc ∈ [0, 4]}
  start_mem := by decide
  zero_mem := by decide
  handler_mem := nofun
  flow_mem _ _ := nofun
  subroutine_mem _ _ := nofun
  npcs_mem _ _ := nofun
  loadOrStore_mem := by
    show ∀ pc ∈ [0, 4], _
    decide
  iinc_mem := by
    show ∀ pc ∈ [0, 4], _
    decide
  wide_mem := by
    show ∀ pc ∈ [0, 4], _
    decide

theorem wide_flag_right_in_careful_runs_load :
    (∃ t, Relation.ReflTransGen (Translation.CarefulStep wideLoad.toBytecodes)
        (Translation.start wideLoad.toBytecodes) t ∧
      ⟨1, 300, 0, .next 4, false⟩ ∈ t.translated ∧ ∀ decoded ∈ t.translated,
        wideLoad.Right decoded) ∧
      ∃ a : Analysis, ⟨1, 0, 0, .next 4, false⟩ ∈ a.analysed ∧
        ∀ decoded ∈ a.analysed, wideLoad.Consumed decoded := by
  have unret (pc : Nat) : wideLoad.opcode pc ≠ .ret := by
    match pc with
    | 0 | 1 | 2 | 3 | 4 => decide
    | _ + 5 => exact nofun
  constructor
  · have run := reaches_of_steps (rfl : steps (fun t => t.step wideLoad.toBytecodes) 4
      (Translation.start wideLoad.toBytecodes) = some _)
    have step (t t' : Translation) (taken : t.step wideLoad.toBytecodes = some t') :
        Translation.CarefulStep wideLoad.toBytecodes t t' := by
      refine ⟨fun prefixed => ?_, taken⟩
      obtain ⟨pc, -, opcode⟩ := Option.map_eq_some_iff.mp prefixed.2
      exact unret pc opcode
    have careful := Relation.ReflTransGen.mono step _ _ run
    exact ⟨_, careful, by decide,
      ((wide_flag_right_in_careful_runs wideLoad).1 _ run).mpr careful⟩
  · have first (pc : Nat) (top : pc ∈ (Analysis.start wideLoad.toBytecodes).tstack.head?) :
        pc = 0 := (Option.some.inj top).symm
    have run : Relation.ReflTransGen (Analysis.CarefulStep wideLoad.toBytecodes)
        (Analysis.start wideLoad.toBytecodes) _ :=
      .tail (.tail .refl
        ⟨fun pc top => ⟨fun _ => unret pc, fun _ => by cases first pc top; rfl⟩, rfl⟩)
        ⟨fun pc top => ⟨fun _ => unret pc, fun kind => by cases top; contradiction⟩, rfl⟩
    exact ⟨_, by decide, (wide_flag_right_in_careful_runs wideLoad).2 _ run⟩

/-- `jsr` to a subroutine that keeps its return address in local `300`; then
`iload 1; ireturn`. -/
def wideRet : Method where
  code pc := [168, 0, 6, 21, 1, 172, 196, 58, 1, 44, 196, 169, 1, 44].getD pc 0
  startPc := 0
  handlerPcs := []
  flow pc := if pc = 0 then .next 3 else .stop
  subroutine pc := if pc = 0 then some 6 else none
  npcs pc := if pc = 0 then [3, 6] else []
  starts := {pc | pc ∈ [0, 3, 5, 6, 10]}
  start_mem := by decide
  zero_mem := by decide
  handler_mem := nofun
  flow_mem := by
    show ∀ pc ∈ [0, 3, 5, 6, 10], _
    decide
  subroutine_mem := by
    show ∀ pc ∈ [0, 3, 5, 6, 10], _
    decide
  npcs_mem := by
    show ∀ pc ∈ [0, 3, 5, 6, 10], _
    decide
  loadOrStore_mem := by
    show ∀ pc ∈ [0, 3, 5, 6, 10], _
    decide
  iinc_mem := by
    show ∀ pc ∈ [0, 3, 5, 6, 10], _
    decide
  wide_mem := by
    show ∀ pc ∈ [0, 3, 5, 6, 10], _
    decide

/-- The `ret` is read with an index of one byte and leaves the flag for what comes after it. -/
theorem wide_ret_keeps_flag :
    (∃ t, Relation.ReflTransGen (fun t t' => t.step wideRet.toBytecodes = some t')
        (Translation.start wideRet.toBytecodes) t ∧
      ¬ ∀ decoded ∈ t.translated, wideRet.Right decoded) ∧
      ∃ a, Relation.ReflTransGen (fun a a' => a.step wideRet.toBytecodes = some a')
          (Analysis.start wideRet.toBytecodes) a ∧
        ¬ ∀ decoded ∈ a.analysed, wideRet.Consumed decoded := by
  constructor
  · refine ⟨_, reaches_of_steps (rfl : steps _ 9 _ = some _), fun right => ?_⟩
    have consumed := (right ⟨11, 1, 0, .stop, true⟩ (by decide)).wide (by decide)
    contradiction
  · refine ⟨_, reaches_of_steps (rfl : steps _ 5 _ = some _), fun right => ?_⟩
    have consumed := (right ⟨11, 0, 0, .stop, true⟩ (by decide)).wide (by decide)
    contradiction

end LaTTe.Translator.Wide
