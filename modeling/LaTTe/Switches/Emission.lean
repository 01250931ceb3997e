import LaTTe.Switches.Graph

namespace LaTTe.Switches

open LaTTe.Sparc (Word Instr State Environment runLine Op Operand Cond Icc)
open LaTTe.Sequences (Reg g0 hi lo)

variable {F : Type}

/-! Code under construction. -/

structure JumpTable where
  jumpInstr : Nat
  entries : List Nat
  deriving DecidableEq, Repr

/-- `pushes` are the calls of `CFGGen_process_and_verify_for_npc`, each with its parent and
the bytecode that it asks for. -/
structure Emission (F : Type) where
  nodes : Graph F
  cInstr : Nat
  pushes : List (Nat × Nat)
  tables : List JumpTable
  deriving DecidableEq, Repr

namespace Emission

variable (e : Emission F)

abbrev size : Nat := e.nodes.length

def append (instr : Native F) : Emission F :=
  { e with
    nodes := Switches.connect (e.nodes ++ [⟨instr, []⟩]) e.cInstr e.size
    cInstr := e.size }

def appendAll (instrs : List (Native F)) : Emission F :=
  instrs.foldl append e

def resume (instr : Nat) : Emission F :=
  { e with cInstr := instr }

/-- `CFGGen_process_and_verify_for_npc` for a bytecode with several successors. -/
def process (npc : Nat) : Emission F :=
  { e with pushes := e.pushes ++ [(e.cInstr, npc)] }

/-- `CFG_AddNewDataEntry`. -/
def addTable (entries : List Nat) : Emission F :=
  { e with tables := e.tables ++ [⟨e.cInstr, entries⟩] }

section Fields

variable (instr npc n : Nat) (entries : List Nat)

@[simp] theorem nodes_resume : (e.resume instr).nodes = e.nodes := rfl

@[simp] theorem cInstr_resume : (e.resume instr).cInstr = instr := rfl

@[simp] theorem pushes_resume : (e.resume instr).pushes = e.pushes := rfl

@[simp] theorem tables_resume : (e.resume instr).tables = e.tables := rfl

@[simp] theorem nodes_process : (e.process npc).nodes = e.nodes := rfl

@[simp] theorem cInstr_process : (e.process npc).cInstr = e.cInstr := rfl

@[simp] theorem tables_process : (e.process npc).tables = e.tables := rfl

@[simp] theorem nodes_addTable : (e.addTable entries).nodes = e.nodes := rfl

@[simp] theorem cInstr_addTable : (e.addTable entries).cInstr = e.cInstr := rfl

@[simp] theorem pushes_addTable : (e.addTable entries).pushes = e.pushes := rfl

@[simp] theorem tables_addTable :
    (e.addTable entries).tables = e.tables ++ [⟨e.cInstr, entries⟩] := rfl

end Fields

def targets (n : Nat) : List Nat :=
  ((e.pushes.filter (·.1 = n)).map (·.2)).reverse

@[simp] theorem targets_resume (instr n : Nat) : (e.resume instr).targets n = e.targets n := rfl

@[simp] theorem targets_addTable (entries : List Nat) (n : Nat) :
    (e.addTable entries).targets n = e.targets n := rfl

end Emission

/-! What an emission leaves as it was. -/

structure Sane (e : Emission F) : Prop where
  cInstr : e.cInstr < e.size
  pushes : ∀ push ∈ e.pushes, push.1 < e.size

theorem Sane.targets {e : Emission F} (sane : Sane e) {n : Nat} (new : e.size ≤ n) :
    e.targets n = [] := by
  have none : e.pushes.filter (·.1 = n) = [] := by
    rw [List.filter_eq_nil_iff]
    intro push mem
    have source := sane.pushes push mem
    simp
    omega
  rw [Emission.targets, none]
  rfl

structure Frame (opened : Nat → Prop) (e e' : Emission F) : Prop where
  size : e.size ≤ e'.size
  nodes : ∀ n < e.size, ¬ opened n → e'.nodes[n]? = e.nodes[n]?
  targets : ∀ n < e.size, ¬ opened n → e'.targets n = e.targets n
  tables : ∃ more, e'.tables = e.tables ++ more

namespace Frame

variable {opened opened' : Nat → Prop} {e e' e'' : Emission F}

theorem trans (first : Frame opened e e') (second : Frame opened e' e'') :
    Frame opened e e'' where
  size := Nat.le_trans first.size second.size
  nodes n below closed :=
    (second.nodes n (Nat.lt_of_lt_of_le below first.size) closed).trans
      (first.nodes n below closed)
  targets n below closed :=
    (second.targets n (Nat.lt_of_lt_of_le below first.size) closed).trans
      (first.targets n below closed)
  tables := by
    obtain ⟨more, equal⟩ := first.tables
    obtain ⟨more', equal'⟩ := second.tables
    exact ⟨more ++ more', by rw [equal', equal, List.append_assoc]⟩

theorem mono (frame : Frame opened e e') (more : ∀ n < e.size, opened n → opened' n) :
    Frame opened' e e' where
  size := frame.size
  nodes n below closed := frame.nodes n below fun was => closed (more n below was)
  targets n below closed := frame.targets n below fun was => closed (more n below was)
  tables := frame.tables

end Frame

theorem targets_process (e : Emission F) (npc n : Nat) :
    (e.process npc).targets n = if n = e.cInstr then npc :: e.targets n else e.targets n := by
  by_cases same : n = e.cInstr
  · simp [Emission.targets, Emission.process, same]
  · simp [Emission.targets, Emission.process, same, Ne.symm same]

theorem frame_process (e : Emission F) (npc : Nat) :
    Frame (· = e.cInstr) e (e.process npc) where
  size := Nat.le_refl _
  nodes _ _ _ := rfl
  targets n _ closed := by rw [targets_process, if_neg closed]
  tables := ⟨[], (List.append_nil _).symm⟩

theorem frame_resume (e : Emission F) (opened : Nat → Prop) (instr : Nat) :
    Frame opened e (e.resume instr) where
  size := Nat.le_refl _
  nodes _ _ _ := rfl
  targets _ _ _ := rfl
  tables := ⟨[], (List.append_nil _).symm⟩

theorem frame_addTable (e : Emission F) (opened : Nat → Prop) (entries : List Nat) :
    Frame opened e (e.addTable entries) where
  size := Nat.le_refl _
  nodes _ _ _ := rfl
  targets _ _ _ := rfl
  tables := ⟨_, rfl⟩

structure Line (e e' : Emission F) (instrs : List (Native F)) : Prop where
  size : e'.size = e.size + instrs.length
  cInstr : e'.cInstr = e.size + (instrs.length - 1)
  kept : ∀ n < e.size, n ≠ e.cInstr → e'.nodes[n]? = e.nodes[n]?
  parent : e'.nodes[e.cInstr]? = e.nodes[e.cInstr]?.map (·.addSucc e.size)
  nodes : ∀ i instr, instrs[i]? = some instr → e'.nodes[e.size + i]? =
    some ⟨instr, if i + 1 < instrs.length then [e.size + i + 1] else []⟩
  pushes : e'.pushes = e.pushes
  tables : e'.tables = e.tables

theorem line_append (e : Emission F) (inside : e.cInstr < e.size) (instr : Native F) :
    Line e (e.append instr) [instr] where
  size := by simp [Emission.append, Emission.size, length_connect]
  cInstr := rfl
  kept n below other := by
    rw [Emission.append, getElem?_connect, if_neg other, List.getElem?_append_left below]
  parent := by
    rw [Emission.append, getElem?_connect, if_pos rfl, List.getElem?_append_left inside]
  nodes i found mem := by
    obtain ⟨rfl, rfl⟩ : i = 0 ∧ found = instr := by
      cases i with
      | zero => exact ⟨rfl, (Option.some.inj mem).symm⟩
      | succ i => contradiction
    have other : e.size + 0 ≠ e.cInstr := by omega
    rw [Emission.append, getElem?_connect, if_neg other]
    simp [Emission.size]
  pushes := rfl
  tables := rfl

theorem Line.snoc {e e' : Emission F} {instrs : List (Native F)} (line : Line e e' instrs)
    (inside : e.cInstr < e.size) (some : instrs ≠ []) (instr : Native F) :
    Line e (e'.append instr) (instrs ++ [instr]) := by
  have positive := List.length_pos_of_ne_nil some
  have place := line.cInstr
  have grown := line.size
  have last : e'.cInstr < e'.size := by omega
  have next := line_append e' last instr
  constructor
  · rw [next.size, grown, List.length_append, Nat.add_assoc]
  · rw [next.cInstr, grown, List.length_append]
    simp
  · intro n below other
    rw [next.kept n (by omega) (by omega), line.kept n below other]
  · rw [next.kept _ (by omega) (by omega), line.parent]
  · intro i found mem
    rcases Nat.lt_trichotomy (i + 1) instrs.length with before | at_ | behind
    · have inner : i < instrs.length := by omega
      rw [List.getElem?_append_left inner] at mem
      have bound : i + 1 < (instrs ++ [instr]).length := by simp; omega
      rw [next.kept _ (by omega) (by omega), line.nodes i found mem, if_pos before, if_pos bound]
    · have inner : i < instrs.length := by omega
      rw [List.getElem?_append_left inner] at mem
      have bound : i + 1 < (instrs ++ [instr]).length := by simp; omega
      have parent : e.size + i = e'.cInstr := by omega
      have succ : e'.size = e.size + i + 1 := by omega
      rw [parent, next.parent, ← parent, line.nodes i found mem, if_neg (by omega), if_pos bound,
        succ]
      rfl
    · have bound := (List.getElem?_eq_some_iff.mp mem).1
      rw [List.length_append] at bound
      have index : i = instrs.length := by
        simp only [List.length_cons, List.length_nil] at bound
        omega
      subst index
      rw [List.getElem?_concat_length] at mem
      have new := next.nodes 0 found (by simpa using mem)
      rw [← grown]
      rw [Nat.add_zero] at new
      simpa using new
  · rw [next.pushes, line.pushes]
  · rw [next.tables, line.tables]

theorem line_appendAll (e : Emission F) (inside : e.cInstr < e.size) {instrs : List (Native F)}
    (some : instrs ≠ []) : Line e (e.appendAll instrs) instrs := by
  induction instrs using List.reverseRecOn with
  | nil => contradiction
  | append_singleton instrs instr ih =>
      rw [Emission.appendAll, List.foldl_append]
      cases instrs with
      | nil => exact line_append e inside instr
      | cons first rest => exact (ih nofun).snoc inside nofun instr

namespace Line

variable {e e' : Emission F} {instrs : List (Native F)}

theorem frame (line : Line e e' instrs) : Frame (· = e.cInstr) e e' where
  size := line.size ▸ Nat.le_add_right _ _
  nodes n below closed := line.kept n below closed
  targets n _ _ := by rw [Emission.targets, line.pushes]; rfl
  tables := ⟨[], by rw [line.tables, List.append_nil]⟩

theorem sane (line : Line e e' instrs) (sane : Sane e) (some : instrs ≠ []) : Sane e' where
  cInstr := by
    have positive := List.length_pos_of_ne_nil some
    rw [line.cInstr, line.size]
    omega
  pushes push mem := by
    rw [line.pushes] at mem
    exact Nat.lt_of_lt_of_le (sane.pushes push mem) line.frame.size

theorem last {instr : Native F} (line : Line e e' (instrs ++ [instr])) :
    e'.cInstr = e.size + instrs.length ∧ e'.nodes[e'.cInstr]? = some ⟨instr, []⟩ := by
  have place : e'.cInstr = e.size + instrs.length := by
    rw [line.cInstr, List.length_append]
    rfl
  have found := line.nodes instrs.length instr List.getElem?_concat_length
  rw [if_neg (by simp)] at found
  exact ⟨place, place ▸ found⟩

end Line

/-! Code at its place in the graph of the method. -/

/-- The code from `low` on stands in the graph behind `base`, with an entry for each
bytecode that it asks for. -/
def Placed (graph : Graph F) (e : Emission F) (base : Nat) (entry : Nat → Nat) (low : Nat) :
    Prop :=
  ∀ n node, low ≤ n → e.nodes[n]? = some node →
    graph[base + n]? =
      some ⟨node.instr, node.successors.map (base + ·) ++ (e.targets n).map entry⟩

namespace Placed

variable {graph : Graph F} {e e' : Emission F} {base low low' : Nat} {entry : Nat → Nat}

theorem mono (placed : Placed graph e base entry low) (more : low ≤ low') :
    Placed graph e base entry low' :=
  fun n node above found => placed n node (Nat.le_trans more above) found

end Placed

/-- A line is run to its last instruction. -/
theorem goes_placed {graph : Graph F} {layout : Layout graph.length}
    {environment : Environment F} {kind : Nat → Prop} {e e' last : Emission F}
    {base : Nat} {entry : Nat → Nat} {instrs : List (Instr Reg F)} {instr : Native F}
    (line : Line e e' (instrs.map .plain ++ [instr]))
    (placed : Placed graph last base entry e.size)
    (kept : ∀ n, e.size ≤ n → n < e'.cInstr → last.nodes[n]? = e'.nodes[n]?)
    {s s' : State Reg F} (run : runLine environment instrs s = some s')
    (fits : ∀ n, e.size ≤ n → n ≤ e'.cInstr → kind (base + n)) :
    Goes graph layout environment kind (base + e.size, s) (base + e'.cInstr, s') := by
  have place : e'.cInstr = e.size + instrs.length := by
    rw [line.last.1, List.length_map]
  have size : e'.size = e.size + instrs.length + 1 := by
    rw [line.size, List.length_append, List.length_map]
    rfl
  have nodes : ∀ i found, instrs[i]? = some found →
      ∃ others, graph[base + e.size + i]? =
        some ⟨.plain found, (base + e.size + i + 1) :: others⟩ := by
    intro i found mem
    have below := (List.getElem?_eq_some_iff.mp mem).1
    have inLine : (instrs.map Native.plain ++ [instr])[i]? = some (.plain found) := by
      rw [List.getElem?_append_left (by simpa using below), List.getElem?_map, mem]
      rfl
    have there := line.nodes i _ inLine
    rw [if_pos (by simpa using below)] at there
    have same := (kept (e.size + i) (by omega) (by omega)).trans there
    have stands := placed (e.size + i) _ (Nat.le_add_right _ _) same
    refine ⟨(last.targets (e.size + i)).map entry, ?_⟩
    rw [Nat.add_assoc base, stands]
    rfl
  have fits' : ∀ i < instrs.length, kind (base + e.size + i + 1) := by
    intro i below
    have inside := fits (e.size + i + 1) (by omega) (by omega)
    rwa [← Nat.add_assoc, ← Nat.add_assoc] at inside
  rw [place, ← Nat.add_assoc]
  exact goes_line nodes run fits'

end LaTTe.Switches
