import LaTTe.Data.Loop
import LaTTe.Sparc.Memory
import Mathlib.Algebra.Notation.Defs

namespace LaTTe.Sparc

universe u v

/-! Instructions of SPARC V8 over registers of any type, and graphs of them.  The register
`0` reads as zero. -/

/-- The quotient of `y:a` without sign; one that does not fit is the largest. -/
def udivide (y a b : Word) : Word :=
  let quotient := (pair y a).toNat / b.toNat
  if quotient < 2 ^ 32 then BitVec.ofNat 32 quotient else BitVec.allOnes 32

/-- The quotient of `y:a`; one that does not fit is the nearest that does. -/
def sdivide (y a b : Word) : Word :=
  let quotient := (pair y a).toInt.tdiv b.toInt
  if 2 ^ 31 ≤ quotient then BitVec.intMax 32
  else if quotient < -2 ^ 31 then BitVec.intMin 32
  else BitVec.ofInt 32 quotient

def shiftCount (b : Word) : Nat := b.toNat % 32

inductive Op where
  | add | addcc | addx | addxcc
  | sub | subcc | subx | subxcc
  | and | andcc | andn | andncc | or | orcc | orn | orncc | xor | xorcc | xnor | xnorcc
  | sll | srl | sra
  | umul | smul | udiv | sdiv
  deriving DecidableEq, Repr

namespace Op

def result (a b : Word) (carry : Bool) (y : Word) : Op → Word
  | add | addcc => a + b
  | addx | addxcc => a + b + bit carry
  | sub | subcc => a - b
  | subx | subxcc => a - b - bit carry
  | and | andcc => a &&& b
  | andn | andncc => a &&& ~~~b
  | or | orcc => a ||| b
  | orn | orncc => a ||| ~~~b
  | xor | xorcc => a ^^^ b
  | xnor | xnorcc => ~~~(a ^^^ b)
  | sll => a <<< shiftCount b
  | srl => a >>> shiftCount b
  | sra => a.sshiftRight (shiftCount b)
  | umul => low (product a b)
  | smul => low (signedProduct a b)
  | udiv => udivide y a b
  | sdiv => sdivide y a b

def icc (a b : Word) (icc : Icc) : Op → Icc
  | addcc => Icc.add a b false
  | addxcc => Icc.add a b icc.carry
  | subcc => Icc.sub a b false
  | subxcc => Icc.sub a b icc.carry
  | andcc => Icc.logic (a &&& b)
  | andncc => Icc.logic (a &&& ~~~b)
  | orcc => Icc.logic (a ||| b)
  | orncc => Icc.logic (a ||| ~~~b)
  | xorcc => Icc.logic (a ^^^ b)
  | xnorcc => Icc.logic (~~~(a ^^^ b))
  | _ => icc

/-- The register `y` afterwards. -/
def y (a b : Word) (y : Word) : Op → Word
  | umul => high (product a b)
  | smul => high (signedProduct a b)
  | _ => y

def divides : Op → Bool
  | udiv | sdiv => true
  | _ => false

def shifts : Op → Bool
  | sll | srl | sra => true
  | _ => false

/-- The lower word of a shift of `upper:a` by a count of six bits. -/
def long (upper a b : Word) : Op → Word
  | sll => low (pair upper a <<< (b.toNat % 64))
  | srl => low (pair upper a >>> (b.toNat % 64))
  | sra => low ((pair upper a).sshiftRight (b.toNat % 64))
  | _ => a

end Op

inductive Operand (R : Type u) where
  | reg (r : R)
  | imm (value : Word)
  deriving DecidableEq, Repr

/-- Bit 12 of the word of a shift selects the one of 64 bits; it is in the immediate field. -/
def Op.isLong {R : Type u} (op : Op) : Operand R → Bool
  | .reg _ => false
  | .imm count => op.shifts && count.getLsbD 12

inductive Instr (R : Type u) (F : Type v) where
  | nop
  | alu (op : Op) (dest src : R) (operand : Operand R)
  | sethi (dest : R) (imm22 : Word)
  | rdy (dest : R)
  | wry (src : R) (operand : Operand R)
  | load (width : Width) (dest base : R) (operand : Operand R)
  | store (width : Width) (src base : R) (operand : Operand R)
  | loadDouble (dest base : R) (operand : Operand R)
  | storeDouble (src base : R) (operand : Operand R)
  | branch (cond : Cond)
  | call (function : F) (args : List R)
  | ta (trap : Nat)
  deriving DecidableEq, Repr

abbrev Calls (F : Type v) := List (F × List Word)

structure State (R : Type u) (F : Type v) where
  regs : R → Word
  doubles : R → BitVec 64
  y : Word
  icc : Icc
  mem : Memory
  calls : Calls F

structure Response where
  y : Word
  icc : Icc
  mem : Memory
  /-- The upper half of a register that is shifted as one of 64 bits. -/
  upper : Word

abbrev Environment (F : Type v) := Calls F → Memory → Response

namespace State

variable {R : Type u} {F : Type v} [Zero R] [DecidableEq R] (s : State R F)

def read (r : R) : Word :=
  if r = 0 then 0 else s.regs r

def write (r : R) (value : Word) : State R F :=
  if r = 0 then s else { s with regs := Function.update s.regs r value }

def operand : Operand R → Word
  | .reg r => s.read r
  | .imm value => value

def alu (op : Op) (dest src : R) (operand : Operand R) : State R F :=
  let a := s.read src
  let b := s.operand operand
  { s with y := op.y a b s.y, icc := op.icc a b s.icc }.write dest
    (op.result a b s.icc.carry s.y)

def shiftLong (upper : Word) (op : Op) (dest src : R) (operand : Operand R) : State R F :=
  s.write dest (op.long (if src = 0 then 0 else upper) (s.read src) (s.operand operand))

def called (environment : Environment F) (function : F) (args : List R) : State R F :=
  let calls := (function, args.map s.read) :: s.calls
  let response := environment calls s.mem
  { s with
    y := response.y
    icc := response.icc
    mem := response.mem
    calls := calls }

@[simp] theorem read_zero : s.read 0 = 0 := if_pos rfl

@[simp] theorem operand_reg (r : R) : s.operand (.reg r) = s.read r := rfl

@[simp] theorem operand_imm (value : Word) : s.operand (.imm value) = value := rfl

theorem write_zero (value : Word) : s.write 0 value = s := if_pos rfl

theorem read_write {r : R} (value : Word) (r' : R) :
    (s.write r value).read r' = if r' = r ∧ r ≠ 0 then value else s.read r' := by
  by_cases zero : r = 0
  · simp [write, zero]
  · by_cases same : r' = r
    · subst same
      simp [write, read, zero]
    · simp [write, read, zero, same, Function.update_of_ne]

@[simp] theorem y_write (r : R) (value : Word) : (s.write r value).y = s.y := by
  unfold write
  split <;> rfl

@[simp] theorem icc_write (r : R) (value : Word) : (s.write r value).icc = s.icc := by
  unfold write
  split <;> rfl

@[simp] theorem mem_write (r : R) (value : Word) : (s.write r value).mem = s.mem := by
  unfold write
  split <;> rfl

@[simp] theorem doubles_write (r : R) (value : Word) :
    (s.write r value).doubles = s.doubles := by
  unfold write
  split <;> rfl

@[simp] theorem calls_write (r : R) (value : Word) : (s.write r value).calls = s.calls := by
  unfold write
  split <;> rfl

variable (op : Op) (dest src : R) (operand : Operand R)

theorem read_alu (r : R) :
    (s.alu op dest src operand).read r =
      if r = dest ∧ dest ≠ 0 then
        op.result (s.read src) (s.operand operand) s.icc.carry s.y
      else s.read r :=
  read_write _ _ r

@[simp] theorem y_alu :
    (s.alu op dest src operand).y = op.y (s.read src) (s.operand operand) s.y :=
  y_write _ _ _

@[simp] theorem icc_alu :
    (s.alu op dest src operand).icc = op.icc (s.read src) (s.operand operand) s.icc :=
  icc_write _ _ _

@[simp] theorem mem_alu : (s.alu op dest src operand).mem = s.mem :=
  mem_write _ _ _

@[simp] theorem doubles_alu : (s.alu op dest src operand).doubles = s.doubles :=
  doubles_write _ _ _

@[simp] theorem calls_alu : (s.alu op dest src operand).calls = s.calls :=
  calls_write _ _ _

end State

inductive Trap where
  | divisionByZero
  | software (number : Nat)
  deriving DecidableEq, Repr

inductive Step (R : Type u) (F : Type v) where
  | next (successor : Nat) (state : State R F)
  | trap (trap : Trap) (state : State R F)

namespace Instr

variable {R : Type u} {F : Type v} [Zero R] [DecidableEq R]

def exec (environment : Environment F) (s : State R F) : Instr R F → Step R F
  | nop => .next 0 s
  | alu op dest src operand =>
      if op.divides ∧ s.operand operand = 0 then
        .trap .divisionByZero s
      else if op.isLong operand then
        .next 0 (s.shiftLong (environment s.calls s.mem).upper op dest src operand)
      else
        .next 0 (s.alu op dest src operand)
  | sethi dest imm22 => .next 0 (s.write dest (imm22 <<< 10))
  | rdy dest => .next 0 (s.write dest s.y)
  | wry src operand => .next 0 { s with y := s.read src ^^^ s.operand operand }
  | load width dest base operand =>
      .next 0 (s.write dest (s.mem.load (s.read base + s.operand operand) width))
  | store width src base operand =>
      .next 0 { s with
        mem := s.mem.store (s.read base + s.operand operand) (s.read src) width }
  | loadDouble dest base operand =>
      .next 0 { s with
        doubles := Function.update s.doubles dest
          (s.mem.double (s.read base + s.operand operand)) }
  | storeDouble src base operand =>
      .next 0 { s with
        mem := s.mem.storeDouble (s.read base + s.operand operand) (s.doubles src) }
  | branch cond => .next (if cond.holds s.icc then 1 else 0) s
  | call function args => .next 0 (s.called environment function args)
  | ta number => .trap (.software number) s

end Instr

section Operands

variable {R : Type u} {F : Type v} [Zero R] [DecidableEq R]
variable (environment : Environment F) {s : State R F} {operand operand' : Operand R}

omit [Zero R] [DecidableEq R] in
theorem isLong_of_not_shifts {op : Op} (other : op.shifts = false) (operand : Operand R) :
    op.isLong operand = false := by
  cases operand with
  | reg r => rfl
  | imm count => rw [Op.isLong, other, Bool.false_and]

theorem exec_alu {op : Op} (plain : op.divides = false) (short : op.isLong operand = false)
    (dest src : R) :
    (Instr.alu op dest src operand : Instr R F).exec environment s =
      .next 0 (s.alu op dest src operand) := by
  simp [Instr.exec, plain, short]

theorem exec_shiftLong {op : Op} (long : op.isLong operand = true) (dest src : R) :
    (Instr.alu op dest src operand : Instr R F).exec environment s =
      .next 0 (s.shiftLong (environment s.calls s.mem).upper op dest src operand) := by
  have plain : op.divides = false := by
    cases operand with
    | reg r => contradiction
    | imm count =>
        cases op with
        | udiv | sdiv => contradiction
        | _ => rfl
  simp [Instr.exec, plain, long]

theorem exec_alu_congr (same : s.operand operand = s.operand operand') {op : Op}
    (short : op.isLong operand = false) (short' : op.isLong operand' = false) (dest src : R) :
    (Instr.alu op dest src operand : Instr R F).exec environment s =
      (Instr.alu op dest src operand' : Instr R F).exec environment s := by
  have result : s.alu op dest src operand = s.alu op dest src operand' := by
    simp only [State.alu, same]
  by_cases traps : op.divides ∧ s.operand operand' = 0
  · rw [Instr.exec, Instr.exec, if_pos traps, if_pos (same.symm ▸ traps)]
  · rw [Instr.exec, Instr.exec, if_neg traps, if_neg (same.symm ▸ traps),
      if_neg (Bool.not_eq_true _ ▸ short), if_neg (Bool.not_eq_true _ ▸ short'), result]

end Operands

/-- Straight-line code; `none` when it traps or branches. -/
def runLine {R : Type u} {F : Type v} [Zero R] [DecidableEq R] (environment : Environment F) :
    List (Instr R F) → State R F → Option (State R F)
  | [], s => some s
  | instr :: instrs, s =>
      match instr.exec environment s with
      | .next 0 s' => runLine environment instrs s'
      | _ => none

theorem runLine_append {R : Type u} {F : Type v} [Zero R] [DecidableEq R]
    (environment : Environment F) (instrs instrs' : List (Instr R F)) (s : State R F) :
    runLine environment (instrs ++ instrs') s =
      (runLine environment instrs s).bind (runLine environment instrs') := by
  induction instrs generalizing s with
  | nil => rfl
  | cons instr instrs ih =>
      simp only [List.cons_append, runLine]
      split
      · exact ih _
      · rfl

theorem runLine_cons {R : Type u} {F : Type v} [Zero R] [DecidableEq R]
    {environment : Environment F} {instr : Instr R F} {s s' : State R F}
    (before : runLine environment [instr] s = some s') (instrs : List (Instr R F)) :
    runLine environment (instr :: instrs) s = runLine environment instrs s' := by
  have split := runLine_append environment [instr] instrs s
  rw [before] at split
  exact split

theorem runLine_alu {R : Type u} {F : Type v} [Zero R] [DecidableEq R]
    (environment : Environment F) (s : State R F) {op : Op} {operand : Operand R}
    (plain : op.divides = false) (short : op.isLong operand = false) (dest src : R)
    (instrs : List (Instr R F)) :
    runLine environment (.alu op dest src operand :: instrs) s =
      runLine environment instrs (s.alu op dest src operand) := by
  simp only [runLine, exec_alu environment plain short]

structure Code (R : Type u) (F : Type v) where
  instrs : List (Instr R F)
  succs : List (List Nat)
  deriving DecidableEq, Repr

/-- Control leaves the code after the instruction `last`, or traps. -/
inductive Outcome (R : Type u) (F : Type v) where
  | left (last successor : Nat) (state : State R F)
  | trapped (trap : Trap) (state : State R F)

namespace Code

variable {R : Type u} {F : Type v} [Zero R] [DecidableEq R]
variable (code : Code R F) (environment : Environment F)

def succ (node index : Nat) : Option Nat :=
  (code.succs.getD node [])[index]?

def run : Nat → Nat → State R F → Option (Outcome R F)
  | 0, _, _ => none
  | fuel + 1, node, s =>
      match code.instrs[node]? with
      | none => none
      | some instr =>
          match instr.exec environment s with
          | .trap trap s' => some (.trapped trap s')
          | .next index s' =>
              match code.succ node index with
              | none => some (.left node index s')
              | some node' => run fuel node' s'

variable {code environment}

theorem run_mono {fuel fuel' node : Nat} {s : State R F} {outcome : Outcome R F}
    (result : code.run environment fuel node s = some outcome) (more : fuel ≤ fuel') :
    code.run environment fuel' node s = some outcome := by
  induction fuel generalizing fuel' node s with
  | zero => contradiction
  | succ fuel ih =>
      obtain ⟨fuel', rfl⟩ : ∃ k, fuel' = k + 1 := ⟨fuel' - 1, by omega⟩
      simp only [run] at result ⊢
      split at result
      · contradiction
      · split at result
        · exact result
        · split at result
          · exact result
          · exact ih result (by omega)

theorem run_branch {fuel node other target : Nat} {s : State R F} {cond : Cond}
    (found : code.instrs[node]? = some (.branch cond))
    (falls : code.succ node 0 = some other) (jumps : code.succ node 1 = some target) :
    code.run environment (fuel + 1) node s =
      code.run environment fuel (if cond.holds s.icc then target else other) s := by
  cases taken : cond.holds s.icc with
  | true => simp [run, found, Instr.exec, taken, jumps]
  | false => simp [run, found, Instr.exec, taken, falls]

def Ends (code : Code R F) (environment : Environment F) (node : Nat) (s : State R F)
    (outcome : Outcome R F) : Prop :=
  ∃ fuel, code.run environment fuel node s = some outcome

theorem Ends.unique {node : Nat} {s : State R F} {outcome outcome' : Outcome R F}
    (one : code.Ends environment node s outcome) (other : code.Ends environment node s outcome') :
    outcome = outcome' := by
  obtain ⟨fuel, one⟩ := one
  obtain ⟨fuel', other⟩ := other
  exact Option.some.inj ((run_mono one (Nat.le_max_left fuel fuel')).symm.trans
    (run_mono other (Nat.le_max_right fuel fuel')))

def Reaches (code : Code R F) (environment : Environment F) (node : Nat) (s : State R F)
    (node' : Nat) (s' : State R F) : Prop :=
  ∃ steps, ∀ fuel, code.run environment (fuel + steps + 1) node s =
    code.run environment fuel node' s'

namespace Reaches

variable {node node' node'' : Nat} {s s' s'' : State R F}

theorem trans (first : code.Reaches environment node s node' s')
    (second : code.Reaches environment node' s' node'' s'') :
    code.Reaches environment node s node'' s'' := by
  obtain ⟨steps, first⟩ := first
  obtain ⟨steps', second⟩ := second
  refine ⟨steps' + 1 + steps, fun fuel => ?_⟩
  have split : fuel + (steps' + 1 + steps) + 1 = fuel + steps' + 1 + steps + 1 := by omega
  rw [split, first, second]

theorem step {instr : Instr R F} {index : Nat} (found : code.instrs[node]? = some instr)
    (goes : instr.exec environment s = .next index s')
    (next : code.succ node index = some node') : code.Reaches environment node s node' s' :=
  ⟨0, fun _ => by simp only [Code.run, found, goes, next]⟩

theorem alu {op : Op} {dest src : R} {operand : Operand R}
    (found : code.instrs[node]? = some (.alu op dest src operand)) (plain : op.divides = false)
    (short : op.isLong operand = false) (next : code.succ node 0 = some node') :
    code.Reaches environment node s node' (s.alu op dest src operand) :=
  step found (exec_alu environment plain short dest src) next

theorem branch {cond : Cond} {other target : Nat}
    (found : code.instrs[node]? = some (.branch cond))
    (falls : code.succ node 0 = some other) (jumps : code.succ node 1 = some target) :
    code.Reaches environment node s (if cond.holds s.icc then target else other) s :=
  ⟨0, fun _ => run_branch found falls jumps⟩

theorem ends_iff (reaches : code.Reaches environment node s node' s') {outcome : Outcome R F} :
    code.Ends environment node s outcome ↔ code.Ends environment node' s' outcome := by
  obtain ⟨steps, reaches⟩ := reaches
  constructor
  · rintro ⟨fuel, run⟩
    exact ⟨fuel, (reaches fuel).symm.trans (run_mono run (by omega))⟩
  · rintro ⟨fuel, run⟩
    exact ⟨fuel + steps + 1, (reaches fuel).trans run⟩

end Reaches

/-- A loop from `node` back to it behaves as a loop over an abstract state if each of its
rounds does. -/
theorem ends_loop_iff {σ : Type*} {ρ : Type*} {body : σ → σ ⊕ ρ}
    {observe : Outcome R F → Option ρ} {node : Nat} (related : State R F → σ → Prop)
    (goes : ∀ s c c', related s c → body c = .inl c' →
      ∃ s', code.Reaches environment node s node s' ∧ related s' c')
    (leaves : ∀ s c result, related s c → body c = .inr result →
      ∃ outcome, code.Ends environment node s outcome ∧ observe outcome = some result)
    {s : State R F} {c : σ} (start : related s c) (result : ρ) :
    (∃ outcome, code.Ends environment node s outcome ∧ observe outcome = some result) ↔
      ∃ fuel, Data.loopUntil body fuel c = some result := by
  constructor
  · rintro ⟨outcome, ⟨fuel, run⟩, observed⟩
    induction fuel using Nat.strong_induction_on generalizing s c with
    | _ fuel ih =>
        cases round : body c with
        | inr result' =>
            obtain ⟨outcome', ends', observed'⟩ := leaves s c result' start round
            cases Ends.unique ⟨fuel, run⟩ ends'
            cases observed.symm.trans observed'
            exact ⟨1, by simp [Data.loopUntil, round]⟩
        | inl c' =>
            obtain ⟨s', ⟨steps, reaches⟩, again⟩ := goes s c c' start round
            rcases Nat.lt_or_ge steps fuel with enough | short
            · obtain ⟨rest, rfl⟩ : ∃ rest, fuel = rest + steps + 1 :=
                ⟨fuel - steps - 1, by omega⟩
              rw [reaches] at run
              obtain ⟨rounds, loop⟩ := ih rest (by omega) again run
              exact ⟨rounds + 1, by simp [Data.loopUntil, round, loop]⟩
            · -- the run would end before the round does
              have stopped := reaches 0
              have more := run_mono run (Nat.le_succ_of_le short)
              rw [Nat.zero_add] at stopped
              rw [stopped] at more
              contradiction
  · rintro ⟨fuel, loop⟩
    induction fuel generalizing s c with
    | zero => contradiction
    | succ fuel ih =>
        cases round : body c with
        | inr result' =>
            simp only [Data.loopUntil, round, Option.some.injEq] at loop
            subst loop
            exact leaves s c result' start round
        | inl c' =>
            simp only [Data.loopUntil, round] at loop
            obtain ⟨s', reaches, again⟩ := goes s c c' start round
            obtain ⟨outcome, ends, observed⟩ := ih again loop
            exact ⟨outcome, reaches.ends_iff.mpr ends, observed⟩

/-- The code `part` appended to `code`, with its instructions renumbered. -/
def behind (code part : Code R F) : Code R F where
  instrs := code.instrs ++ part.instrs
  succs := code.succs ++ part.succs.map (·.map (code.instrs.length + ·))

end Code

namespace Outcome

variable {R : Type u} {F : Type v}

def shift (base : Nat) : Outcome R F → Outcome R F
  | left last successor s => left (base + last) successor s
  | trapped trap s => trapped trap s

end Outcome

namespace Code

variable {R : Type u} {F : Type v} [Zero R] [DecidableEq R]
variable {code part : Code R F} {environment : Environment F}

omit [Zero R] [DecidableEq R] in
theorem succ_behind (level : code.succs.length = code.instrs.length) (node index : Nat) :
    (code.behind part).succ (code.instrs.length + node) index =
      (part.succ node index).map (code.instrs.length + ·) := by
  rw [succ, succ, behind, List.getD_eq_getElem?_getD, List.getD_eq_getElem?_getD, ← level,
    List.getElem?_append_right (Nat.le_add_right _ _), Nat.add_sub_cancel_left, List.getElem?_map]
  cases part.succs[node]? with
  | none => rfl
  | some nodes => exact List.getElem?_map

theorem run_behind (level : code.succs.length = code.instrs.length) (fuel node : Nat)
    (s : State R F) :
    (code.behind part).run environment fuel (code.instrs.length + node) s =
      (part.run environment fuel node s).map (.shift code.instrs.length) := by
  induction fuel generalizing node s with
  | zero => rfl
  | succ fuel ih =>
      have found : (code.behind part).instrs[code.instrs.length + node]? = part.instrs[node]? := by
        rw [behind, List.getElem?_append_right (Nat.le_add_right _ _), Nat.add_sub_cancel_left]
      simp only [run, found, succ_behind level]
      cases part.instrs[node]? with
      | none => rfl
      | some instr =>
          cases exec : instr.exec environment s with
          | trap trap s' => simp only [exec, Option.map_some, Outcome.shift]
          | next index s' =>
              cases next : part.succ node index with
              | none => simp only [exec, next, Option.map_none, Option.map_some, Outcome.shift]
              | some node' => simp only [exec, next, Option.map_some, ih]

theorem ends_behind_iff (level : code.succs.length = code.instrs.length) (node : Nat)
    (s : State R F) (outcome : Outcome R F) :
    (code.behind part).Ends environment (code.instrs.length + node) s outcome ↔
      ∃ outcome', part.Ends environment node s outcome' ∧
        outcome'.shift code.instrs.length = outcome := by
  simp only [Ends, run_behind level, Option.map_eq_some_iff]
  constructor
  · rintro ⟨fuel, outcome', run, shifted⟩
    exact ⟨outcome', ⟨fuel, run⟩, shifted⟩
  · rintro ⟨outcome', ⟨fuel, run⟩, shifted⟩
    exact ⟨fuel, outcome', run, shifted⟩

end Code

end LaTTe.Sparc
