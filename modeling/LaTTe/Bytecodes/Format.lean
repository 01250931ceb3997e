import LaTTe.Translator.WidePrefix
import Mathlib.Order.Monotone.Basic
import Mathlib.Algebra.Group.Nat.Defs

namespace LaTTe.Bytecodes

open LaTTe.Translator.Wide (Bytes getUint8 getInt16)

/-! Bytecodes in the class file format. -/

def getWord32 (bcode : Bytes) (pc : Nat) : BitVec 32 :=
  bcode pc ++ bcode (pc + 1) ++ bcode (pc + 2) ++ bcode (pc + 3)

def getInt32 (bcode : Bytes) (pc : Nat) : Int := (getWord32 bcode pc).toInt

def opcodeLengths : List Nat := [
  1, 1, 1, 1, 1, 1, 1, 1, 1, 1, 1, 1, 1, 1, 1, 1,
  2, 3, 2, 3, 3, 2, 2, 2, 2, 2, 1, 1, 1, 1, 1, 1,
  1, 1, 1, 1, 1, 1, 1, 1, 1, 1, 1, 1, 1, 1, 1, 1,
  1, 1, 1, 1, 1, 1, 2, 2, 2, 2, 2, 1, 1, 1, 1, 1,
  1, 1, 1, 1, 1, 1, 1, 1, 1, 1, 1, 1, 1, 1, 1, 1,
  1, 1, 1, 1, 1, 1, 1, 1, 1, 1, 1, 1, 1, 1, 1, 1,
  1, 1, 1, 1, 1, 1, 1, 1, 1, 1, 1, 1, 1, 1, 1, 1,
  1, 1, 1, 1, 1, 1, 1, 1, 1, 1, 1, 1, 1, 1, 1, 1,
  1, 1, 1, 1, 3, 1, 1, 1, 1, 1, 1, 1, 1, 1, 1, 1,
  1, 1, 1, 1, 1, 1, 1, 1, 1, 3, 3, 3, 3, 3, 3, 3,
  3, 3, 3, 3, 3, 3, 3, 3, 3, 2, 0, 0, 1, 1, 1, 1,
  1, 1, 3, 3, 3, 3, 3, 3, 3, 5, 1, 3, 2, 3, 1, 1,
  3, 3, 1, 1, 1, 4, 3, 3, 5, 5, 1, 1, 1, 1, 1, 1,
  1, 1, 1, 1, 1, 1, 1, 1, 1, 1, 1, 1, 1, 1, 1, 3,
  3, 3, 3, 3, 3, 3, 3, 3, 3, 3, 3, 3, 3, 3, 3, 3,
  3, 3, 3, 1, 1, 1, 1, 1, 1, 1, 1, 1, 1, 1, 3, 3]

def getOpcodeLen (opcode : Nat) : Nat := opcodeLengths.getD opcode 0

inductive Kind where
  | ifCond | goto | gotoW | jsr | jsrW | tableswitch | lookupswitch
  | return_ | ret | wide | loadOrStore | iinc | other
  deriving DecidableEq, Repr

def kindOf (opcode : Nat) : Kind :=
  if 153 ≤ opcode ∧ opcode ≤ 166 ∨ opcode = 198 ∨ opcode = 199 then .ifCond
  else if opcode = 167 then .goto
  else if opcode = 200 then .gotoW
  else if opcode = 168 then .jsr
  else if opcode = 201 then .jsrW
  else if opcode = 170 then .tableswitch
  else if opcode = 171 then .lookupswitch
  else if 172 ≤ opcode ∧ opcode ≤ 177 ∨ opcode = 191 then .return_
  else if opcode = 169 then .ret
  else if opcode = 196 ∨ 211 ≤ opcode ∧ opcode ≤ 222 then .wide
  else if 21 ≤ opcode ∧ opcode ≤ 25 ∨ 54 ≤ opcode ∧ opcode ≤ 58 then .loadOrStore
  else if opcode = 132 then .iinc
  else .other

structure Handler where
  startPc : Nat
  endPc : Nat
  handlerPc : Nat
  deriving DecidableEq, Repr

structure Method where
  code : Bytes
  codelen : Nat
  exceptionTable : List Handler

namespace Method

variable (m : Method)

def opcode (pc : Nat) : Nat := getUint8 m.code pc

def kind (pc : Nat) : Kind := kindOf (m.opcode pc)

def padded (pc : Nat) : Nat := (pc + 4) / 4 * 4

def tableSize (pc : Nat) : Int :=
  getInt32 m.code (padded pc + 8) - getInt32 m.code (padded pc + 4) + 1

def numPairs (pc : Nat) : Int := getInt32 m.code (padded pc + 4)

def length (pc : Nat) : Nat :=
  match m.kind pc with
  | .tableswitch => padded pc + 12 + 4 * (m.tableSize pc).toNat - pc
  | .lookupswitch => padded pc + 8 + 8 * (m.numPairs pc).toNat - pc
  | .wide => if m.kind (pc + 1) = .iinc then 6 else 4
  | _ => getOpcodeLen (m.opcode pc)

def edges (pc : Nat) : List Int :=
  match m.kind pc with
  | .ifCond => [pc + 3, pc + getInt16 m.code (pc + 1)]
  | .goto => [pc + getInt16 m.code (pc + 1)]
  | .gotoW => [pc + getInt32 m.code (pc + 1)]
  | .jsr => [pc + 3]
  | .jsrW => [pc + 5]
  | .tableswitch =>
      (List.range (m.tableSize pc).toNat).reverse.map
        (fun k => (pc : Int) + getInt32 m.code (padded pc + 12 + 4 * k)) ++
      [pc + getInt32 m.code (padded pc)]
  | .lookupswitch =>
      (List.range (m.numPairs pc).toNat).reverse.map
        (fun k => (pc : Int) + getInt32 m.code (padded pc + 12 + 8 * k)) ++
      [pc + getInt32 m.code (padded pc)]
  | .return_ | .ret => []
  | .wide => if m.kind (pc + 1) = .ret then [] else [(pc + m.length pc : Nat)]
  | .loadOrStore | .iinc | .other => [(pc + m.length pc : Nat)]

def subroutine (pc : Nat) : Option Int :=
  match m.kind pc with
  | .jsr => some (pc + getInt16 m.code (pc + 1))
  | .jsrW => some (pc + getInt32 m.code (pc + 1))
  | _ => none

def position : Nat → Nat
  | 0 => 0
  | n + 1 => position n + m.length (position n)

def Boundary (pc : Nat) : Prop := pc < m.codelen ∧ ∃ n, m.position n = pc

def IsTarget (npc : Int) : Prop := ∃ pc : Nat, npc = pc ∧ m.Boundary pc

/-- A structurally valid method body.  Behind a `wide` is an opcode that it may widen, and the
operands of a switch make sense. -/
structure Valid : Prop where
  codelen_pos : 0 < m.codelen
  codelen_small : m.codelen < 2 ^ 16
  fits : ∀ pc, m.Boundary pc → pc + m.length pc ≤ m.codelen
  edges : ∀ pc, m.Boundary pc → ∀ npc ∈ m.edges pc, m.IsTarget npc
  subroutine : ∀ pc, m.Boundary pc → ∀ npc ∈ m.subroutine pc, m.IsTarget npc
  widened : ∀ pc, m.Boundary pc → m.kind pc = .wide →
    m.kind (pc + 1) = .loadOrStore ∨ m.kind (pc + 1) = .iinc ∨ m.kind (pc + 1) = .ret
  table : ∀ pc, m.Boundary pc → m.kind pc = .tableswitch → 0 < m.tableSize pc
  pairs : ∀ pc, m.Boundary pc → m.kind pc = .lookupswitch → 0 ≤ m.numPairs pc
  handlers : ∀ handler ∈ m.exceptionTable, m.IsTarget handler.handlerPc ∧
    handler.startPc ≤ m.codelen ∧ handler.endPc ≤ m.codelen

inductive Reached : Nat → Prop
  | start : Reached 0
  | handler {handler : Handler} (member : handler ∈ m.exceptionTable) : Reached handler.handlerPc
  | edge {pc npc : Nat} (reached : Reached pc) (member : (npc : Int) ∈ m.edges pc) : Reached npc
  | subroutine {pc npc : Nat} (reached : Reached pc) (member : (npc : Int) ∈ m.subroutine pc) :
      Reached npc

inductive Entry where
  | method
  | handler (i : Nat)
  | edge (pc i : Nat)
  deriving DecidableEq, Repr

def Enters (entry : Entry) (pc : Nat) : Prop :=
  match entry with
  | .method => pc = 0
  | .handler i => ∃ handler, m.exceptionTable[i]? = some handler ∧ handler.handlerPc = pc
  | .edge pc' i => m.Reached pc' ∧ (m.edges pc')[i]? = some (pc : Int)

def Joined (pc : Nat) : Prop :=
  ∃ entry entry', entry ≠ entry' ∧ m.Enters entry pc ∧ m.Enters entry' pc

variable {m}

theorem Boundary.length_le {pc pc' : Nat} (boundary : m.Boundary pc) (boundary' : m.Boundary pc')
    (before : pc < pc') : pc + m.length pc ≤ pc' := by
  obtain ⟨-, n, rfl⟩ := boundary
  obtain ⟨-, n', rfl⟩ := boundary'
  have monotone : Monotone m.position := monotone_nat_of_le_succ fun k => Nat.le_add_right _ _
  have later : n < n' := by
    by_contra earlier
    exact Nat.not_lt.mpr (monotone (Nat.not_lt.mp earlier)) before
  exact monotone (Nat.succ_le_of_lt later)

theorem length_wide {pc : Nat} (wide : m.kind pc = .wide) :
    m.length pc = if m.kind (pc + 1) = .iinc then 6 else 4 := by
  unfold length
  rw [wide]

theorem Boundary.not_widened {pc : Nat} (boundary : m.Boundary pc) (wide : m.kind pc = .wide) :
    ¬ m.Boundary (pc + 1) := by
  intro next
  have fits := boundary.length_le next (Nat.lt_succ_self pc)
  rw [length_wide wide] at fits
  split at fits <;> omega

theorem Valid.reached_boundary (valid : m.Valid) {pc : Nat} (reached : m.Reached pc) :
    m.Boundary pc := by
  induction reached with
  | start => exact ⟨valid.codelen_pos, 0, rfl⟩
  | handler member =>
      obtain ⟨⟨pc, same, boundary⟩, _⟩ := valid.handlers _ member
      rwa [Int.ofNat_inj.mp same]
  | edge _ member ih =>
      obtain ⟨pc, same, boundary⟩ := valid.edges _ ih _ member
      rwa [Int.ofNat_inj.mp same]
  | subroutine _ member ih =>
      obtain ⟨pc, same, boundary⟩ := valid.subroutine _ ih _ member
      rwa [Int.ofNat_inj.mp same]

end Method

end LaTTe.Bytecodes
