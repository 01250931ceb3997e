import LaTTe.Data.Transition
import LaTTe.Sequences.Emit

namespace LaTTe.Switches

open LaTTe.Sparc (Word Instr State Environment runLine Op Operand Cond Icc)
open LaTTe.Sequences (Reg g0 hi lo)

/-! Flow graphs of native instructions with jumps through registers. -/

inductive Native (F : Type) where
  | plain (instr : Instr Reg F)
  | jmpl (srcReg : Reg)
  deriving DecidableEq, Repr

structure InstrNode (F : Type) where
  instr : Native F
  successors : List Nat
  deriving DecidableEq, Repr

abbrev Graph (F : Type) := List (InstrNode F)

variable {F : Type}

def InstrNode.addSucc (node : InstrNode F) (succ : Nat) : InstrNode F :=
  { node with successors := node.successors ++ [succ] }

/-- `Instr_connect_instruction`. -/
def connect (graph : Graph F) (previousInstr newInstr : Nat) : Graph F :=
  graph.modify previousInstr (·.addSucc newInstr)

theorem length_connect (graph : Graph F) (previousInstr newInstr : Nat) :
    (connect graph previousInstr newInstr).length = graph.length :=
  List.length_modify ..

theorem getElem?_connect (graph : Graph F) (previousInstr newInstr n : Nat) :
    (connect graph previousInstr newInstr)[n]? =
      if n = previousInstr then graph[n]?.map (·.addSucc newInstr) else graph[n]? := by
  rw [connect, List.getElem?_modify]
  by_cases same : n = previousInstr
  · subst same
    simp
  · simp [same, Ne.symm same]

/-! Running a graph. -/

structure Layout (size : Nat) where
  address : Nat → Word
  nodeAt : Word → Option Nat
  nodeAt_address : ∀ node < size, nodeAt (address node) = some node

abbrev Point (F : Type) := Nat × State Reg F

section Running

variable (graph : Graph F) (layout : Layout graph.length) (environment : Environment F)

def step (point : Point F) : Option (Point F) :=
  match graph[point.1]? with
  | none => none
  | some node =>
      match node.instr with
      | .plain instr =>
          match instr.exec environment point.2 with
          | .next index state => (node.successors[index]?).map (·, state)
          | .trap _ _ => none
      | .jmpl srcReg => (layout.nodeAt (point.2.read srcReg)).map (·, point.2)

def Goes (kind : Nat → Prop) : Point F → Point F → Prop :=
  Relation.ReflTransGen fun before after =>
    step graph layout environment before = some after ∧ kind after.1

def Transfers (entries : Nat → Prop) (point target : Point F) : Prop :=
  ∃ last, Goes graph layout environment (fun node => ¬ entries node) point last ∧
    step graph layout environment last = some target ∧ entries target.1

end Running

section Runs

variable {graph : Graph F} {layout : Layout graph.length} {environment : Environment F}
variable {kind : Nat → Prop} {point point' point'' : Point F}

theorem Goes.trans (first : Goes graph layout environment kind point point')
    (second : Goes graph layout environment kind point' point'') :
    Goes graph layout environment kind point point'' :=
  Relation.ReflTransGen.trans first second

theorem Goes.single (taken : step graph layout environment point = some point')
    (fits : kind point'.1) : Goes graph layout environment kind point point' :=
  Relation.ReflTransGen.single ⟨taken, fits⟩

/-- Instructions that follow each other. -/
theorem goes_line {base : Nat} {instrs : List (Instr Reg F)} {s s' : State Reg F}
    (nodes : ∀ i instr, instrs[i]? = some instr →
      ∃ others, graph[base + i]? = some ⟨.plain instr, (base + i + 1) :: others⟩)
    (run : runLine environment instrs s = some s')
    (fits : ∀ i < instrs.length, kind (base + i + 1)) :
    Goes graph layout environment kind (base, s) (base + instrs.length, s') := by
  induction instrs generalizing base s with
  | nil =>
      cases run
      exact .refl
  | cons instr instrs ih =>
      obtain ⟨others, found⟩ := nodes 0 instr rfl
      simp only [runLine] at run
      split at run
      · rename_i next exec
        have taken : step graph layout environment (base, s) = some (base + 1, next) := by
          rw [Nat.add_zero] at found
          simp [step, found, exec]
        have nodes' : ∀ i later, instrs[i]? = some later →
            ∃ others, graph[base + 1 + i]? = some ⟨.plain later, (base + 1 + i + 1) :: others⟩ := by
          intro i later found
          have place : base + 1 + i = base + (i + 1) := by omega
          rw [place]
          exact nodes (i + 1) later found
        have fits' : ∀ i < instrs.length, kind (base + 1 + i + 1) := by
          intro i below
          have place : base + 1 + i + 1 = base + (i + 1) + 1 := by omega
          rw [place]
          exact fits (i + 1) (Nat.succ_lt_succ below)
        have rest := ih nodes' run fits'
        have length : base + (instr :: instrs).length = base + 1 + instrs.length := by
          simp only [List.length_cons]
          omega
        rw [length]
        exact (Goes.single taken (fits 0 (by simp))).trans rest
      · contradiction

theorem step_branch {node other target : Nat} {s : State Reg F} {cond : Cond}
    (found : graph[node]? = some ⟨.plain (.branch cond), [other, target]⟩) :
    step graph layout environment (node, s) =
      some (if cond.holds s.icc then target else other, s) := by
  cases taken : cond.holds s.icc with
  | true => simp [step, found, Instr.exec, taken]
  | false => simp [step, found, Instr.exec, taken]

theorem step_jmpl {node target : Nat} {s : State Reg F} {srcReg : Reg} {succs : List Nat}
    (found : graph[node]? = some ⟨.jmpl srcReg, succs⟩) (inside : target < graph.length)
    (address : s.read srcReg = layout.address target) :
    step graph layout environment (node, s) = some (target, s) := by
  simp [step, found, address, layout.nodeAt_address target inside]

end Runs

end LaTTe.Switches
