import LaTTe.Switches.Emission
import Mathlib.Data.Finset.Card

namespace LaTTe.Switches

/-! The depth-first translation of a method. -/

variable {F : Type}

/-- The code of one bytecode.  It goes on with `next`, or pushes. -/
structure Block (F : Type) where
  nodes : Graph F
  pushes : List (Nat × Nat)
  next : Option (Nat × Nat)
  some : 0 < nodes.length
  parents : ∀ push ∈ pushes, push.1 < nodes.length
  last : ∀ push ∈ next, push.1 < nodes.length

namespace Block

variable (block : Block F)

def targets (n : Nat) : List Nat :=
  ((block.next.toList ++ block.pushes.reverse).filter (·.1 = n)).map (·.2)

end Block

def Emission.block (e : Emission F) (sane : Sane e) : Block F where
  nodes := e.nodes
  pushes := e.pushes
  next := none
  some := Nat.lt_of_le_of_lt (Nat.zero_le _) sane.cInstr
  parents := sane.pushes
  last := nofun

theorem Emission.targets_block (e : Emission F) (sane : Sane e) (n : Nat) :
    (e.block sane).targets n = e.targets n := by
  simp [Block.targets, Emission.block, Emission.targets, List.filter_reverse, List.map_reverse]

/-- The translation of each bytecode, `none` where it writes behind one of its tables. -/
structure Method (F : Type) where
  prologue : Graph F
  lastInstr : Nat
  startPc : Nat
  length : Nat
  block : Nat → Option (Block F)
  inside : lastInstr < prologue.length
  start : startPc < length
  closed : ∀ pc < length, ∀ code, block pc = some code → ∀ n, ∀ npc ∈ code.targets n, npc < length

/-- `current` is the last instruction and the next bytecode while no context has to be
loaded. -/
structure Traversal (F : Type) where
  graph : Graph F
  translatedInstrs : Nat → Option Nat
  traverseStack : List (Nat × Nat)
  current : Option (Nat × Nat)

def maxStackSize : Nat := 1000

/-- `none` when an entry behind the stack is written. -/
def pushAll : List (Nat × Nat) → List (Nat × Nat) → Option (List (Nat × Nat))
  | [], stack => some stack
  | push :: pushes, stack =>
      if stack.length < maxStackSize then pushAll pushes (push :: stack) else none

def InstrNode.shift (base : Nat) (node : InstrNode F) : InstrNode F :=
  { node with successors := node.successors.map (base + ·) }

namespace Traversal

/-- The code of a bytecode behind `parent`. -/
def install (graph : Graph F) (parent : Nat) (block : Block F) : Graph F :=
  connect (graph ++ block.nodes.map (·.shift graph.length)) parent graph.length

def relocate (base : Nat) (push : Nat × Nat) : Nat × Nat := (base + push.1, push.2)

variable (m : Method F) (t : Traversal F)

def translateBytecode (parent pc : Nat) : Option (Traversal F) := do
  let block ← m.block pc
  let base := t.graph.length
  let stack ← pushAll (block.pushes.map (relocate base)) t.traverseStack
  some
    { graph := install t.graph parent block
      translatedInstrs := Function.update t.translatedInstrs pc (some base)
      traverseStack := stack
      current := block.next.map (relocate base) }

def visit (parent pc : Nat) : Option (Traversal F) :=
  match t.translatedInstrs pc with
  | some instr => some { t with graph := connect t.graph parent instr }
  | none => t.translateBytecode m parent pc

def pop : Option ((Nat × Nat) × Traversal F) :=
  match t.current with
  | some entry => some (entry, { t with current := none })
  | none =>
      match t.traverseStack with
      | [] => none
      | entry :: rest => some (entry, { t with traverseStack := rest })

/-- One round of `translate_main_flow`. -/
def round : Option (Traversal F) := do
  let (entry, rest) ← t.pop
  rest.visit m entry.1 entry.2

def start : Traversal F where
  graph := m.prologue
  translatedInstrs := fun _ => none
  traverseStack := [(m.lastInstr, m.startPc)]
  current := none

def Reached : Prop :=
  Relation.ReflTransGen (fun before after => round m before = some after) (start m) t

def Finished : Prop := Reached m t ∧ t.pop = none

/-- The next bytecode is translated already, or has a translation that the stack has room
for. -/
def Careful : Prop :=
  ∀ entry rest, t.pop = some (entry, rest) → rest.translatedInstrs entry.2 = none →
    ∃ block, m.block entry.2 = some block ∧
      (block.pushes = [] ∨ rest.traverseStack.length + block.pushes.length ≤ maxStackSize)

end Traversal

theorem pushAll_eq {pushes stack : List (Nat × Nat)}
    (room : pushes = [] ∨ stack.length + pushes.length ≤ maxStackSize) :
    pushAll pushes stack = some (pushes.reverse ++ stack) := by
  induction pushes generalizing stack with
  | nil => rfl
  | cons push pushes ih =>
      have bound := room.resolve_left nofun
      simp only [List.length_cons] at bound
      rw [pushAll, if_pos (by omega), ih (.inr (by simp only [List.length_cons]; omega))]
      simp

theorem room_of_pushAll {pushes stack result : List (Nat × Nat)}
    (pushed : pushAll pushes stack = some result) :
    pushes = [] ∨ stack.length + pushes.length ≤ maxStackSize := by
  induction pushes generalizing stack with
  | nil => exact .inl rfl
  | cons push pushes ih =>
      rw [pushAll] at pushed
      split at pushed
      · rename_i below
        have rest := ih pushed
        simp only [List.length_cons] at rest ⊢
        rcases rest with none | bound
        · subst none
          exact .inr (by simp only [List.length_nil]; omega)
        · exact .inr (by omega)
      · contradiction

end LaTTe.Switches
