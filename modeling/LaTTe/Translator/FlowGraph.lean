import LaTTe.Classes.Hierarchy
import LaTTe.Data.Transition

namespace LaTTe.Translator

open LaTTe.Classes (Method)

/-! The instructions of the translator and the graphs they form. -/

inductive VarType where
  | int | long | cc | float | double | ref | ivoid | fvoid
  deriving DecidableEq, Repr

/-- A variable; `number` is `CFG_get_var_number`. -/
structure Var where
  number : Nat
  type : VarType
  deriving DecidableEq, Repr

inductive Reg where
  | hard (number : Nat)
  | var (v : Var)
  deriving DecidableEq, Repr

def g0 : Reg := .hard 0

inductive InvokeType where
  | virtual | special | static | interface
  deriving DecidableEq, Repr

structure FuncInfo where
  argVars : List Var
  retVars : List Var
  deriving DecidableEq, Repr

/-- What an instruction does.  `operate` stands for the other instructions with a
destination register and `transfer` for those without. -/
inductive Operation where
  | addRegisters (destReg srcReg1 srcReg2 : Reg)
  | addImmediate (destReg srcReg : Reg) (simm13 : Int)
  | fmov (destReg srcReg1 srcReg2 : Reg)
  | sethi (destReg : Reg)
  | call (info : FuncInfo)
  | invoke (type : InvokeType) (calledMethod : Method) (finalOrPrivate : Bool)
      (info : FuncInfo)
  | operate (destReg : Reg)
  | transfer
  deriving DecidableEq, Repr

structure InstrNode where
  operation : Operation
  myTypedValue : Option Nat
  succs : List Nat
  deriving DecidableEq, Repr

inductive Destination where
  | none
  | one (reg : Reg)
  | two (first second : Var)
  deriving DecidableEq, Repr

/-- A call has its return values for destinations; a `double` takes one variable. -/
def FuncInfo.destination (info : FuncInfo) : Destination :=
  match info.retVars with
  | [] => .none
  | [ret] => .one (.var ret)
  | first :: second :: _ =>
      if first.type = .double then .one (.var first) else .two first second

namespace InstrNode

variable (instr : InstrNode)

def semanticDst : Destination :=
  match instr.operation with
  | .addRegisters dest _ _ => .one dest
  | .addImmediate dest _ _ => .one dest
  | .fmov dest _ _ => .one dest
  | .sethi dest => .one dest
  | .call info => info.destination
  | .invoke _ _ _ info => info.destination
  | .operate dest => .one dest
  | .transfer => .none

def isNop : Bool :=
  match instr.operation with
  | .addRegisters dest _ _ => dest = g0
  | .addImmediate dest _ _ => dest = g0
  | .fmov dest _ _ => dest = g0
  | .sethi dest => dest = g0
  | _ => false

def copySource : Option Reg :=
  match instr.operation with
  | .addRegisters _ src1 src2 => if src1 = g0 ∨ src2 = g0 then some src1 else none
  | .addImmediate _ src simm13 => if src ≠ g0 ∧ simm13 = 0 then some src else none
  | .fmov _ _ src2 => some src2
  | _ => none

def moved : Option Reg :=
  match instr.operation with
  | .addRegisters _ src1 src2 =>
      if src1 = g0 then some src2 else if src2 = g0 then some src1 else none
  | .addImmediate _ src simm13 => if src ≠ g0 ∧ simm13 = 0 then some src else none
  | .fmov _ _ src2 => some src2
  | _ => none

def writes : List Nat :=
  match instr.semanticDst with
  | .none => []
  | .one (.hard _) => []
  | .one (.var dst) =>
      if dst.type = .double then [dst.number, dst.number + 1] else [dst.number]
  | .two first second => [first.number, second.number]

def increments (v : Nat) : Bool :=
  match instr.operation with
  | .addImmediate (.var dst) (.var src) _ =>
      dst.number = v && src.number = v && instr.myTypedValue = none
  | _ => false

theorem moved_of_copySource {src : Var} (copies : instr.copySource = some (.var src)) :
    instr.moved = some (.var src) := by
  unfold copySource at copies
  unfold moved
  cases hop : instr.operation with
  | addRegisters dest src1 src2 =>
      simp only [hop] at copies
      split at copies
      · rename_i isCopy
        obtain rfl : src1 = .var src := Option.some.inj copies
        rcases isCopy with absurd | second
        · contradiction
        · simp [g0, second]
      · contradiction
  | addImmediate dest src' simm13 => simpa only [hop] using copies
  | fmov dest src1 src2 => simpa only [hop] using copies
  | _ => simp only [hop] at copies; contradiction

end InstrNode

/-- The flow graph of one method, with what the analysis of its types starts from.
`argSet` has the types of the arguments, whose variables start at `argOffset`; the
locals start at `localOffset`, and `numOfDefs` counts the stores to each of them. -/
structure FlowGraph where
  nodes : List InstrNode
  head : Nat
  argSet : List (Option Nat)
  argOffset : Nat
  localOffset : Nat
  localSize : Nat
  numOfDefs : Nat → Nat

theorem eq_of_length_le_one {items : List Nat} (short : items.length ≤ 1) {p q : Nat}
    (first : p ∈ items) (second : q ∈ items) : p = q := by
  match items with
  | [] => contradiction
  | [only] => rw [List.mem_singleton.mp first, List.mem_singleton.mp second]
  | _ :: _ :: _ => simp at short

namespace FlowGraph

variable (g : FlowGraph)

def node (n : Nat) : InstrNode :=
  g.nodes.getD n ⟨.transfer, none, []⟩

def succs (n : Nat) : List Nat :=
  (g.node n).succs

def preds (n : Nat) : List Nat :=
  (List.range g.nodes.length).flatMap fun p => List.replicate ((g.succs p).count n) p

/-- `Instr_IsJoin`. -/
def isRegionEnd (n : Nat) : Bool :=
  1 < (g.preds n).length

theorem node_of_length_le {n : Nat} (beyond : g.nodes.length ≤ n) :
    g.node n = ⟨.transfer, none, []⟩ := by
  rw [node, List.getD, List.getElem?_eq_none beyond]
  rfl

theorem succs_of_length_le {p : Nat} (beyond : g.nodes.length ≤ p) : g.succs p = [] := by
  rw [succs, g.node_of_length_le beyond]

theorem mem_preds {n p : Nat} : p ∈ g.preds n ↔ n ∈ g.succs p := by
  rw [preds, List.mem_flatMap]
  constructor
  · intro member
    obtain ⟨q, _, inReplicate⟩ := member
    obtain ⟨positive, rfl⟩ := List.mem_replicate.mp inReplicate
    exact List.count_pos_iff.mp (Nat.pos_of_ne_zero positive)
  · intro member
    refine ⟨p, ?_, List.mem_replicate.mpr ⟨?_, rfl⟩⟩
    · refine List.mem_range.mpr (Nat.lt_of_not_le ?_)
      intro beyond
      rw [g.succs_of_length_le beyond] at member
      contradiction
    · exact Nat.ne_of_gt (List.count_pos_iff.mpr member)

theorem pred_unique {n p q : Nat} (single : g.isRegionEnd n = false)
    (first : n ∈ g.succs p) (second : n ∈ g.succs q) : p = q := by
  have short : (g.preds n).length ≤ 1 := by simpa [isRegionEnd] using single
  exact eq_of_length_le_one short (g.mem_preds.mpr first) (g.mem_preds.mpr second)

def Defines (n v : Nat) : Prop :=
  v ∈ (g.node n).writes ∧ (g.node n).increments v = false

instance (n v : Nat) : Decidable (g.Defines n v) :=
  inferInstanceAs (Decidable (_ ∧ _))

def definitions (v : Nat) : List Nat :=
  (List.range g.nodes.length).filter fun n => g.Defines n v

variable {g}

theorem lt_of_mem_succs {n p : Nat} (member : n ∈ g.succs p) : p < g.nodes.length := by
  refine Nat.lt_of_not_le fun beyond => ?_
  rw [g.succs_of_length_le beyond] at member
  contradiction

theorem Defines.lt {n v : Nat} (defines : g.Defines n v) : n < g.nodes.length := by
  refine Nat.lt_of_not_le fun beyond => ?_
  obtain ⟨member, _⟩ := defines
  rw [g.node_of_length_le beyond] at member
  contradiction

theorem mem_definitions {n v : Nat} : n ∈ g.definitions v ↔ g.Defines n v := by
  rw [definitions, List.mem_filter, List.mem_range, decide_eq_true_eq]
  exact ⟨And.right, fun defines => ⟨defines.lt, defines⟩⟩

end FlowGraph

/-! Execution. -/

inductive Value where
  | object (identity type : Nat)
  | word (bits : Nat)
  deriving DecidableEq, Repr

def Value.IsObject (value : Value) (type : Nat) : Prop :=
  ∃ identity, value = .object identity type

def Value.isReference : Value → Bool
  | .object _ _ => true
  | .word _ => false

/-- An instruction turns one valuation of the variables into the other.  The values
of registers and memory are arbitrary, an instruction that the analysis has a type for
leaves an object of that class, and only numbers are incremented. -/
structure Executes (instr : InstrNode) (before after : Nat → Value) : Prop where
  frame : ∀ v, v ∉ instr.writes → after v = before v
  moved : ∀ dst src, instr.semanticDst = .one (.var dst) → instr.moved = some (.var src) →
    after dst.number = before src.number
  typed : ∀ dst type, instr.semanticDst = .one (.var dst) → instr.copySource = none →
    instr.myTypedValue = some type → (after dst.number).IsObject type
  incremented : ∀ v, instr.increments v = true →
    (before v).isReference = false ∧ (after v).isReference = false

structure State where
  next : Nat
  vars : Nat → Value

def FlowGraph.Step (g : FlowGraph) (before after : State) : Prop :=
  after.next ∈ g.succs before.next ∧ Executes (g.node before.next) before.vars after.vars

end LaTTe.Translator
