import LaTTe.Translator.Loops.Origin
import Mathlib.Data.Finite.Prod
import Mathlib.Data.List.GetD

namespace LaTTe.Translator.Loops

open LaTTe.Data

/-! The value of an operand is that of its origin where that was read. -/

namespace Body

variable {body : Body}

/-- The values of the registers at each time of an execution of the loop, which starts
with the header.  A variable keeps its value until it is written, and a copy writes what it
moves. -/
structure Executes {V : Type} (body : Body) (val : Nat → Reg → V) : Prop where
  zero : ∀ t, val t g0 = val 0 g0
  kept : ∀ t (v : Var), (body.instr (body.indexAt t)).destReg ≠ some (.var v) →
    val (t + 1) (.var v) = val t (.var v)
  copied : ∀ t (v : Var) src, (body.instr (body.indexAt t)).destReg = some (.var v) →
    (body.instr (body.indexAt t)).moved = some src → val (t + 1) (.var v) = val t src

theorem indexAt_add_mul (t turns : Nat) : body.indexAt (t + turns * body.size) = body.indexAt t := by
  rw [indexAt, indexAt, Nat.add_mul_mod_self_right]

section

variable {V : Type} {val : Nat → Reg → V}

theorem Executes.value_of_reaches (executes : body.Executes val) (positive : 0 < body.size)
    {t j distance : Nat} {v : Var} {src : Reg}
    (reaches : body.ReachingDef v (body.indexAt t) j distance) (long : distance ≤ t)
    (moved : (body.instr j).moved = some src) : val t (.var v) = val (t - distance) src := by
  obtain ⟨found, kept⟩ := reaches.executed positive long
  have written : val (t - distance + 1) (.var v) = val (t - distance) src := by
    refine executes.copied _ v src ?_ ?_
    · rw [found]
      exact reaches.destReg
    · rw [found]
      exact moved
  rw [← written]
  have since : ∀ u, t - distance + 1 ≤ u → u ≤ t →
      val u (.var v) = val (t - distance + 1) (.var v) := by
    intro u after
    induction u, after using Nat.le_induction with
    | base =>
        intro _
        rfl
    | succ u after ih =>
        intro below
        rw [← ih (Nat.le_of_succ_le below)]
        apply executes.kept
        intro dest
        exact (kept u after below).1 (InstrNode.destNumber_of_var _ dest)
  have near := reaches.positive
  exact since t (by omega) (Nat.le_refl t)

end

namespace ReadAt

variable {use final : Nat × Nat} {far : Nat}

theorem eq_of_zero (read : body.ReadAt use final far) (atOnce : far = 0) : use = final := by
  cases read with
  | here => rfl
  | copied _ reaches _ _ =>
      have further := reaches.positive
      omega

theorem executed (positive : 0 < body.size) (read : body.ReadAt use final far) {t : Nat}
    (now : body.indexAt t = use.1) (long : far ≤ t) : body.indexAt (t - far) = final.1 := by
  induction read generalizing t with
  | here => exact now
  | @copied use final v j operand distance far source reaches copy read ih =>
      rw [← now] at reaches
      obtain ⟨found, _⟩ := reaches.executed positive (Nat.le_of_add_right_le long)
      rw [← Nat.sub_sub]
      exact ih found (by omega)

theorem copyOperand (read : body.ReadAt use final far) (moved : 0 < far) :
    (body.instr final.1).copyOperand = some final.2 ∧
      ∃ v : Var, (body.instr use.1).srcReg use.2 = some (.var v) := by
  induction read with
  | here => exact absurd moved (Nat.lt_irrefl 0)
  | copied source reaches copy read ih =>
      refine ⟨?_, _, source⟩
      cases read with
      | here => exact copy
      | copied source' reaches' copy' read =>
          have further := reaches'.positive
          exact (ih (by omega)).1

theorem value (read : body.ReadAt use final far) (positive : 0 < body.size) (moved : 0 < far)
    {src : Reg} (moves : (body.instr final.1).moved = some src) {V : Type} {val : Nat → Reg → V}
    (executes : body.Executes val) {t : Nat} (now : body.indexAt t = use.1) (long : far ≤ t)
    {operand : Reg} (isOperand : (body.instr use.1).srcReg use.2 = some operand) :
    val t operand = val (t - far) src := by
  induction read generalizing t operand with
  | here => exact absurd moved (Nat.lt_irrefl 0)
  | @copied use final v j number distance far source reaches copy read ih =>
      rw [source] at isOperand
      cases isOperand
      rw [← now] at reaches
      have near : distance ≤ t := Nat.le_of_add_right_le long
      obtain ⟨found, _⟩ := reaches.executed positive near
      cases read with
      | here => exact executes.value_of_reaches positive reaches near moves
      | @copied _ _ w _ _ _ _ source' reaches' copy' read' =>
          have further := reaches'.positive
          have straight : (body.instr j).moved = some (.var w) := by
            rcases (body.instr j).srcReg_copyOperand copy with same | ⟨zero, _⟩
            · exact same.symm.trans source'
            · rw [zero] at source'
              cases source'
          rw [executes.value_of_reaches positive reaches near straight, ← Nat.sub_sub]
          exact ih (by omega) moves found (by omega) source'

end ReadAt

/-- Whether copies of `g0` have given its value to a register since the loop was entered. -/
def givenZero (body : Body) : Nat → Reg → Bool
  | 0, reg => reg = g0
  | _ + 1, .hard number => Reg.hard number = g0
  | t + 1, .var v =>
      if (body.instr (body.indexAt t)).destReg = some (.var v) then
        match (body.instr (body.indexAt t)).moved with
        | some src => body.givenZero t src
        | none => false
      else
        body.givenZero t (.var v)

theorem Executes.value_of_givenZero {V : Type} {val : Nat → Reg → V}
    (executes : body.Executes val) (turns : Nat) {t : Nat} {reg : Reg}
    (given : body.givenZero t reg = true) : val (t + turns * body.size) reg = val 0 g0 := by
  induction t generalizing reg with
  | zero =>
      rw [givenZero, decide_eq_true_eq] at given
      rw [given]
      exact executes.zero _
  | succ t ih =>
      have later : t + 1 + turns * body.size = t + turns * body.size + 1 := Nat.add_right_comm ..
      rw [later]
      cases reg with
      | hard number =>
          rw [givenZero, decide_eq_true_eq] at given
          rw [given]
          exact executes.zero _
      | var v =>
          rw [givenZero] at given
          split at given
          · rename_i dest
            cases moved : (body.instr (body.indexAt t)).moved with
            | none =>
                rw [moved] at given
                cases given
            | some src =>
                rw [moved] at given
                rw [← ih given]
                apply executes.copied
                · rw [indexAt_add_mul]
                  exact dest
                · rw [indexAt_add_mul]
                  exact moved
          · rename_i other
            rw [← ih given]
            apply executes.kept
            rw [indexAt_add_mul]
            exact other

/-- The execution that starts with one in all registers but `g0`, and has one for the
result of what is not a copy. -/
def marked (body : Body) (t : Nat) (reg : Reg) : Nat :=
  if body.givenZero t reg then 0 else 1

theorem marked_executes : body.Executes body.marked := by
  constructor
  · intro t
    cases t <;> rfl
  · intro t v other
    rw [marked, marked, givenZero, if_neg other]
  · intro t v src dest moved
    rw [marked, marked, givenZero, if_pos dest, moved]

/-- In every execution the operand has the value that the register had where it was
read. -/
def SameValue (body : Body) (use : Nat × Nat) (reg : Reg) (far : Nat) : Prop :=
  ∀ (V : Type) (val : Nat → Reg → V), body.Executes val → ∀ t, body.indexAt t = use.1 →
    far ≤ t → ∀ operand, (body.instr use.1).srcReg use.2 = some operand →
      val t operand = val (t - far) reg

/-- The last copy of a trace moves what the trace found, or what has the value of `g0`. -/
def ZeroMoved (body : Body) (use : Nat × Nat) : Prop :=
  ∀ (final : Nat × Nat) (far : Nat) (src : Reg), body.ReadAt use final far → body.Last final →
    0 < far → (body.instr final.1).moved = some src →
    (body.instr final.1).srcReg final.2 ≠ some src →
    body.givenZero (body.size - 1 - final.1) src = true

variable {use final : Nat × Nat} {far : Nat} {reg : Reg}

theorem sameValue_of_zeroMoved (inside : use.1 < body.size) (zeroMoved : body.ZeroMoved use)
    (read : body.ReadAt use final far) (last : body.Last final)
    (found : (body.instr final.1).srcReg final.2 = some reg) : body.SameValue use reg far := by
  intro V val executes t now long operand isOperand
  have positive : 0 < body.size := Nat.lt_of_le_of_lt (Nat.zero_le _) inside
  rcases Nat.eq_zero_or_pos far with atOnce | moved
  · subst atOnce
    obtain rfl := read.eq_of_zero rfl
    rw [found] at isOperand
    cases isOperand
    rfl
  · obtain ⟨copy, _⟩ := read.copyOperand moved
    rcases (body.instr final.1).srcReg_copyOperand copy with same | ⟨zero, src, moves⟩
    · rw [found] at same
      exact read.value positive moved same.symm executes now long isOperand
    · by_cases straight : (body.instr final.1).srcReg final.2 = some src
      · rw [found] at straight
        cases straight
        exact read.value positive moved moves executes now long isOperand
      · have given := zeroMoved final far src read last moved moves straight
        have there := read.executed positive now long
        have split : t - far = body.size - 1 - final.1 + (t - far) / body.size * body.size := by
          have whole := Nat.mod_add_div' (t - far) body.size
          have below := Nat.mod_lt (t - far) positive
          rw [indexAt] at there
          omega
        rw [zero] at found
        cases found
        rw [read.value positive moved moves executes now long isOperand, executes.zero]
        nth_rewrite 1 [split]
        exact executes.value_of_givenZero _ given

theorem indexAt_of_readAt (inside : use.1 < body.size) (read : body.ReadAt use final far) :
    body.indexAt (body.size - 1 - final.1 + far) = use.1 := by
  have positive : 0 < body.size := Nat.lt_of_le_of_lt (Nat.zero_le _) inside
  have now : body.indexAt (body.size - 1 - use.1 + far * body.size) = use.1 := by
    rw [indexAt_add_mul, indexAt_of_lt (by omega)]
    omega
  have long : far ≤ body.size - 1 - use.1 + far * body.size :=
    Nat.le_add_left_of_le (Nat.le_mul_of_pos_right _ positive)
  have there := read.executed positive now long
  generalize time : body.size - 1 - use.1 + far * body.size = t at now long there
  have whole := Nat.mod_add_div' (t - far) body.size
  have below := Nat.mod_lt (t - far) positive
  have split : t = body.size - 1 - final.1 + far + (t - far) / body.size * body.size := by
    rw [indexAt] at there
    omega
  rw [split, indexAt_add_mul] at now
  exact now

theorem zeroMoved_of_sameValue (inside : use.1 < body.size)
    (same : ∀ final far reg, body.ReadAt use final far → body.Last final →
      (body.instr final.1).srcReg final.2 = some reg → body.SameValue use reg far) :
    body.ZeroMoved use := by
  intro final far src read last moved moves differs
  have positive : 0 < body.size := Nat.lt_of_le_of_lt (Nat.zero_le _) inside
  obtain ⟨copy, v, isOperand⟩ := read.copyOperand moved
  rcases (body.instr final.1).srcReg_copyOperand copy with straight | ⟨zero, _⟩
  · rw [straight] at differs
    exact absurd moves differs
  · have now := indexAt_of_readAt inside read
    have long : far ≤ body.size - 1 - final.1 + far := Nat.le_add_left ..
    have equal := same final far g0 read last zero Nat body.marked marked_executes _ now long
      _ isOperand
    rw [read.value positive moved moves marked_executes now long isOperand,
      Nat.add_sub_cancel, marked_executes.zero] at equal
    have none : body.marked 0 g0 = 0 := rfl
    rw [none, marked] at equal
    by_contra other
    rw [if_neg other] at equal
    cases equal

/-- `get_org_src_reg` returns for an operand, and what it returns is `-1` or has had the value
of the operand where it was read. -/
def Traces (body : Body) (use : Nat × Nat) : Prop :=
  ∃ fuel org defInstrs,
    body.getOrgSrcReg body.buildVarUdChain fuel use.1 use.2 ∅ = some (org, defInstrs) ∧
      ∀ reg, org = some reg → ∃ (final : Nat × Nat) (far : Nat), body.ReadAt use final far ∧
        body.Last final ∧ (body.instr final.1).srcReg final.2 = some reg ∧
        body.SameValue use reg far

/-- The same, where the register has been read in every iteration by the time at which the
operand is used. -/
def TracesThroughout (body : Body) (use : Nat × Nat) : Prop :=
  ∃ fuel org defInstrs,
    body.getOrgSrcReg body.buildVarUdChain fuel use.1 use.2 ∅ = some (org, defInstrs) ∧
      ∀ reg, org = some reg → ∃ (final : Nat × Nat) (far : Nat), body.ReadAt use final far ∧
        body.Last final ∧ (body.instr final.1).srcReg final.2 = some reg ∧
        body.SameValue use reg far ∧ ∀ t, body.indexAt t = use.1 → far ≤ t

def SameIteration (body : Body) (use : Nat × Nat) : Prop :=
  ∀ (final : Nat × Nat) (far : Nat) (reg : Reg), body.ReadAt use final far →
    body.Last final → (body.instr final.1).srcReg final.2 = some reg → use.1 + far < body.size

theorem acc_copiedFrom (straight : ¬ Circular body.CopiedFrom use) : Acc body.CopiedFrom use := by
  refine acc_of_not_circular ((Set.finite_lt_nat body.size).prod (Set.finite_lt_nat 2)) ?_
    straight
  · intro later earlier ⟨inside, copy, _⟩
    refine ⟨inside, ?_⟩
    rw [InstrNode.copyOperand] at copy
    split at copy
    · rw [← Option.some.inj copy]
      exact Nat.zero_lt_two
    · split at copy
      · rw [← Option.some.inj copy]
        exact Nat.one_lt_two
      · cases copy

theorem traces_iff (inside : use.1 < body.size) :
    body.Traces use ↔ ¬ Circular body.CopiedFrom use ∧ body.ZeroMoved use := by
  constructor
  · intro ⟨fuel, org, defInstrs, returned, right⟩
    obtain ⟨ends, final, far, read, last, origin⟩ := getOrgSrcReg_returned inside returned
    refine ⟨not_circular_of_acc ends, zeroMoved_of_sameValue inside ?_⟩
    intro final' far' reg read' last' found
    obtain ⟨rfl, rfl⟩ := (read.le_of_last inside read' last').2 last
    obtain ⟨final', far', read', last', _, same⟩ := right reg (origin.trans found)
    obtain ⟨rfl, rfl⟩ := (read.le_of_last inside read' last').2 last
    exact same
  · intro ⟨straight, zeroMoved⟩
    obtain ⟨fuel, returns⟩ := getOrgSrcReg_returns (acc_copiedFrom straight) inside
    obtain ⟨⟨org, defInstrs⟩, returned⟩ := returns ∅
    obtain ⟨_, final, far, read, last, origin⟩ := getOrgSrcReg_returned inside returned
    refine ⟨fuel, org, defInstrs, returned, fun reg same => ?_⟩
    have found := origin.symm.trans same
    exact ⟨final, far, read, last, found, sameValue_of_zeroMoved inside zeroMoved read last found⟩

theorem tracesThroughout_iff (inside : use.1 < body.size) :
    body.TracesThroughout use ↔ ¬ Circular body.CopiedFrom use ∧ body.ZeroMoved use ∧
      body.SameIteration use := by
  rw [← and_assoc, ← traces_iff inside]
  have first : body.indexAt (body.size - 1 - use.1) = use.1 := by
    rw [indexAt_of_lt (by omega)]
    omega
  constructor
  · intro ⟨fuel, org, defInstrs, returned, right⟩
    refine ⟨⟨fuel, org, defInstrs, returned, fun reg isReg => ?_⟩, ?_⟩
    · obtain ⟨final, far, read, last, found, same, _⟩ := right reg isReg
      exact ⟨final, far, read, last, found, same⟩
    · intro final far reg read last found
      obtain ⟨_, final', far', read', last', origin⟩ := getOrgSrcReg_returned inside returned
      obtain ⟨rfl, rfl⟩ := (read.le_of_last inside read' last').2 last
      obtain ⟨final', far', read', last', _, _, early⟩ := right reg (origin.trans found)
      obtain ⟨rfl, rfl⟩ := (read.le_of_last inside read' last').2 last
      have executed := early _ first
      omega
  · intro ⟨⟨fuel, org, defInstrs, returned, right⟩, sameIteration⟩
    refine ⟨fuel, org, defInstrs, returned, fun reg isReg => ?_⟩
    obtain ⟨final, far, read, last, found, same⟩ := right reg isReg
    refine ⟨final, far, read, last, found, same, fun t now => ?_⟩
    have within := sameIteration final far reg read last found
    have below := Nat.mod_lt t (Nat.lt_of_le_of_lt (Nat.zero_le _) inside)
    have whole := Nat.mod_le t body.size
    rw [indexAt] at now
    omega

end Body

/-! The loops that were detected. -/

variable {g : Graph}

theorem PathTo.eq_of_nil {last first : Nat} {items : List LoopInstr}
    (path : PathTo g last items first) (nil : items = []) : first = last := by
  cases path with
  | start => rfl
  | step path item onward => exact absurd nil (List.append_ne_nil_of_right_ne_nil _ (by simp))

theorem PathTo.first_eq {last first : Nat} {items : List LoopInstr}
    (path : PathTo g last items first) (some_ : 0 < items.length) :
    (items.map LoopInstr.instr).getD (items.length - 1) 0 = first := by
  cases path with
  | start => exact absurd some_ (Nat.lt_irrefl 0)
  | step path item onward => simp

theorem PathTo.onward {last first : Nat} {items : List LoopInstr}
    (path : PathTo g last items first) {i : Nat} {item : LoopInstr} (at_i : items[i]? = some item) :
    (g item.instr).succs[item.successorNum]? =
      some (if i = 0 then last else (items.map LoopInstr.instr).getD (i - 1) 0) := by
  induction path with
  | start => cases at_i
  | @step done next path newest onward ih =>
      rcases Nat.lt_trichotomy i done.length with inside | here | outside
      · rw [List.getElem?_append_left inside] at at_i
        rw [ih at_i]
        by_cases first : i = 0
        · rw [if_pos first, if_pos first]
        · rw [if_neg first, if_neg first, List.map_append, List.getD_append]
          rw [List.length_map]
          omega
      · subst here
        rw [List.getElem?_append_right (Nat.le_refl _), Nat.sub_self,
          List.getElem?_cons_zero] at at_i
        cases at_i
        rw [onward]
        cases done with
        | nil =>
            rw [path.eq_of_nil rfl]
            rfl
        | cons head tail =>
            have reached := path.first_eq (Nat.succ_pos _)
            rw [List.length_cons, if_neg (Nat.succ_ne_zero _), List.map_append,
              List.getD_append, ← List.length_cons (a := head), reached]
            rw [List.length_map, List.length_cons]
            omega
      · rw [List.getElem?_eq_none] at at_i
        · cases at_i
        · rw [List.length_append, List.length_singleton]
          exact outside

theorem Accepted.onward {instr : Nat} {loop : Loop} (accepted : Accepted g instr loop)
    (some_ : 0 < loop.found.loopInstrArraySize) (numOfVars t : Nat) :
    (g (loop.address ((loop.body g numOfVars).indexAt t))).succs[
        loop.successorNum ((loop.body g numOfVars).indexAt t)]? =
      some (loop.address ((loop.body g numOfVars).indexAt (t + 1))) := by
  have positive : 0 < (loop.body g numOfVars).size := some_
  have inside := Body.indexAt_lt positive t
  have sameSize : (loop.body g numOfVars).size = loop.found.loopInstrArray.length := accepted.size
  generalize hbody : loop.body g numOfVars = body at *
  have earlier := Body.before_indexAt_succ positive t
  have later := Body.indexAt_lt positive (t + 1)
  generalize now : body.indexAt t = i at *
  generalize next : body.indexAt (t + 1) = k at *
  have listed : i < loop.found.loopInstrArray.length := by omega
  have onward := accepted.cycle.onward (List.getElem?_eq_getElem listed)
  have address : loop.address i = loop.found.loopInstrArray[i].instr := by
    rw [Loop.address, List.getD_eq_getElem _ _ (by rwa [List.length_map]), List.getElem_map]
  have successorNum : loop.successorNum i = loop.found.loopInstrArray[i].successorNum := by
    rw [Loop.successorNum, List.getD_eq_getElem _ _ (by rwa [List.length_map]), List.getElem_map]
  rw [address, successorNum, onward]
  rw [Body.before] at earlier
  congr 1
  split at earlier
  · rename_i last
    subst earlier
    rw [if_pos rfl, Loop.address]
    have closing := accepted.cycle.first_eq (by omega)
    rw [← closing]
    congr 1
    omega
  · subst earlier
    rw [if_neg (Nat.succ_ne_zero k), Nat.add_sub_cancel]
    rfl

/-- For an operand of a loop that was accepted, the trace returns, with a register that had
the value of the operand where it was read, exactly if it does not come back to a copy and
does not take `g0` for the source of a copy that moves another value.  Moreover the register
has been read in every iteration exactly if the trace stays in the iteration of the operand.
Times are those of executions along the successors in the loop. -/
theorem get_org_src_reg_traces_iff {fuel instr : Nat} {loop : Loop}
    (accepted : detectLoop g fuel instr = some (some loop)) (numOfVars : Nat) {use : Nat × Nat}
    (inside : use.1 < loop.found.loopInstrArraySize) :
    ((loop.body g numOfVars).Traces use ↔
      ¬ Circular (loop.body g numOfVars).CopiedFrom use ∧
        (loop.body g numOfVars).ZeroMoved use) ∧
    ((loop.body g numOfVars).TracesThroughout use ↔
      ¬ Circular (loop.body g numOfVars).CopiedFrom use ∧
        (loop.body g numOfVars).ZeroMoved use ∧ (loop.body g numOfVars).SameIteration use) ∧
    ∀ t, (g (loop.address ((loop.body g numOfVars).indexAt t))).succs[
        loop.successorNum ((loop.body g numOfVars).indexAt t)]? =
      some (loop.address ((loop.body g numOfVars).indexAt (t + 1))) :=
  ⟨Body.traces_iff inside, Body.tracesThroughout_iff inside,
    (detectLoop_accepted accepted).onward (Nat.lt_of_le_of_lt (Nat.zero_le _) inside) numOfVars⟩

/-- `t = a; a = b; b = t` in a loop that reads from the address in `a`. -/
def swapping : Graph
  | 0 => ⟨.load, .format5 (.var ⟨3, .int⟩) (.var ⟨0, .ref⟩) 0, [6, 4], [1], [], none, none⟩
  | 1 => ⟨.add, .format6 (.var ⟨2, .ref⟩) (.var ⟨0, .ref⟩) g0, [0], [2], [], none, none⟩
  | 2 => ⟨.add, .format6 (.var ⟨0, .ref⟩) (.var ⟨1, .ref⟩) g0, [1], [3], [], none, none⟩
  | 3 => ⟨.add, .format6 (.var ⟨1, .ref⟩) (.var ⟨2, .ref⟩) g0, [2], [4], [], none, none⟩
  | 4 => ⟨.branch, .format3, [3], [0, 5], [], none, none⟩
  | _ => ⟨.other, .format9, [4], [0], [], none, none⟩

def swappingLoop : Loop where
  found := ⟨5, [⟨4, 0, 1⟩, ⟨3, 0, 1⟩, ⟨2, 0, 1⟩, ⟨1, 0, 1⟩, ⟨0, 0, 1⟩], [0], 2⟩
  entryOuterPredNum := 0
  entryOuterPredInstr := 6
  entryOuterPredInstrSuccNum := 0

theorem swappingLoop_accepted : detectLoop swapping 6 0 = some (some swappingLoop) := by
  decide

theorem InstrNode.passes_of_nil {instr : InstrNode} (none : instr.lastUsedRegs = [])
    {number : Nat} (other : instr.destNumber ≠ some number) : instr.Passes number := by
  refine ⟨other, fun ⟨_, _, _, last⟩ => ?_⟩
  rw [none] at last
  exact List.not_mem_nil last

section

open Body

theorem swappingLoop_circular : Circular (swappingLoop.body swapping 4).CopiedFrom (4, 0) := by
  have a : (swappingLoop.body swapping 4).CopiedFrom (2, 0) (4, 0) := by
    refine ⟨by decide, by decide, ⟨0, .ref⟩, 3, rfl, ?_⟩
    refine .earlier (InstrNode.passes_of_nil rfl (by decide)) ?_
    refine .earlier (InstrNode.passes_of_nil rfl (by decide)) ?_
    exact ReachingDef.here (i := 1) rfl
  have b : (swappingLoop.body swapping 4).CopiedFrom (1, 0) (2, 0) := by
    refine ⟨by decide, by decide, ⟨1, .ref⟩, 4, rfl, ?_⟩
    refine .earlier (InstrNode.passes_of_nil rfl (by decide)) ?_
    refine .earlier (InstrNode.passes_of_nil rfl (by decide)) ?_
    refine .earlier (InstrNode.passes_of_nil rfl (by decide)) ?_
    exact ReachingDef.here (i := 0) rfl
  have t : (swappingLoop.body swapping 4).CopiedFrom (3, 0) (1, 0) := by
    refine ⟨by decide, by decide, ⟨2, .ref⟩, 2, rfl, ?_⟩
    refine .earlier (InstrNode.passes_of_nil rfl (by decide)) ?_
    exact ReachingDef.here (i := 2) rfl
  have back : (swappingLoop.body swapping 4).CopiedFrom (2, 0) (3, 0) := by
    refine ⟨by decide, by decide, ⟨0, .ref⟩, 4, rfl, ?_⟩
    refine .earlier (InstrNode.passes_of_nil rfl (by decide)) ?_
    refine .earlier (InstrNode.passes_of_nil rfl (by decide)) ?_
    refine .earlier (InstrNode.passes_of_nil rfl (by decide)) ?_
    exact ReachingDef.here (i := 1) rfl
  exact ⟨(2, 0), .single a, .head back (.head t (.single b))⟩

/-- The trace of the address never returns. -/
theorem swapped_address_never_returns :
    detectLoop swapping 6 0 = some (some swappingLoop) ∧ ∀ fuel defInstrs,
      (swappingLoop.body swapping 4).getOrgSrcReg
        (swappingLoop.body swapping 4).buildVarUdChain fuel 4 0 defInstrs = none := by
  refine ⟨swappingLoop_accepted, fun fuel defInstrs => ?_⟩
  rw [Option.eq_none_iff_forall_ne_some]
  intro ⟨org, defs⟩ returned
  have ends := (getOrgSrcReg_returned (by decide) returned).1
  exact not_circular_of_acc ends swappingLoop_circular

end

theorem get_org_src_reg_traces_iff_swapping :
    ((swappingLoop.body swapping 4).Traces (4, 0) ↔
      ¬ Circular (swappingLoop.body swapping 4).CopiedFrom (4, 0) ∧
        (swappingLoop.body swapping 4).ZeroMoved (4, 0)) ∧
    ((swappingLoop.body swapping 4).TracesThroughout (4, 0) ↔
      ¬ Circular (swappingLoop.body swapping 4).CopiedFrom (4, 0) ∧
        (swappingLoop.body swapping 4).ZeroMoved (4, 0) ∧
        (swappingLoop.body swapping 4).SameIteration (4, 0)) ∧
    ∀ t, (swapping (swappingLoop.address ((swappingLoop.body swapping 4).indexAt t))).succs[
        swappingLoop.successorNum ((swappingLoop.body swapping 4).indexAt t)]? =
      some (swappingLoop.address ((swappingLoop.body swapping 4).indexAt (t + 1))) :=
  get_org_src_reg_traces_iff swappingLoop_accepted 4 (by decide)

end LaTTe.Translator.Loops
