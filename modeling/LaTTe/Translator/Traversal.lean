import LaTTe.Translator.NumberingStep

namespace LaTTe.Translator.Vn

open LaTTe.Translator (Reg Var g0)

/-! The traversal keeps the numbers and the checks of the path that it is on. -/

structure Keeps (st next : Numbering) : Prop where
  le : st.currentVn ≤ next.currentVn
  rhsOf : ∀ n < st.currentVn, next.rhsOf n = st.rhsOf n
  stack : ∃ pushed, next.stack = pushed ++ st.stack

section

variable {st next : Numbering} {instr : Instr}

theorem Keeps.of_eq (currentVn : next.currentVn = st.currentVn) (rhsOf : next.rhsOf = st.rhsOf)
    (stack : next.stack = st.stack) : Keeps st next :=
  ⟨Nat.le_of_eq currentVn.symm, fun _ _ => by rw [rhsOf], [], stack⟩

theorem Keeps.refl (st : Numbering) : Keeps st st :=
  .of_eq rfl rfl rfl

theorem Keeps.trans {last : Numbering} (first : Keeps st next) (second : Keeps next last) :
    Keeps st last := by
  refine ⟨Nat.le_trans first.le second.le, fun n below => ?_, ?_⟩
  · exact (second.rhsOf n (Nat.lt_of_lt_of_le below first.le)).trans (first.rhsOf n below)
  · obtain ⟨pushed, equal⟩ := first.stack
    obtain ⟨more, equal'⟩ := second.stack
    exact ⟨more ++ pushed, by rw [equal', equal, List.append_assoc]⟩

theorem keeps_register (st : Numbering) (field : RhsField) (source : Option Instr) :
    Keeps st (st.register field source).2 :=
  ⟨Nat.le_succ _, fun _ below => Function.update_of_ne (Nat.ne_of_lt below) _ _, [], rfl⟩

theorem keeps_createUndef (st : Numbering) : Keeps st st.createUndef.2 := by
  have counted : Keeps st { st with currentUndef := st.currentUndef + 1 } := .of_eq rfl rfl rfl
  exact counted.trans (keeps_register _ _ _)

theorem keeps_insert (st : Numbering) (reg : Reg) (vn : Nat) : Keeps st (st.insert reg vn) :=
  .of_eq rfl rfl rfl

theorem keeps_erase (st : Numbering) (reg : Reg) : Keeps st (st.erase reg) :=
  .of_eq rfl rfl rfl

theorem keeps_fromConst (st : Numbering) (value : BitVec 32) : Keeps st (st.fromConst value).2 := by
  unfold Numbering.fromConst
  split
  · exact .refl st
  · exact keeps_register st _ _

theorem keeps_fromVar (st : Numbering) (reg : Reg) : Keeps st (st.fromVar reg).2 := by
  have unknown : Keeps st (st.createUndef.2.insert reg st.createUndef.1) :=
    (keeps_createUndef st).trans (keeps_insert _ _ _)
  cases reg with
  | var v =>
      cases known : st.map v.number with
      | some vn => rw [fromVar_known known]; exact .refl st
      | none => rw [fromVar_unknown known]; exact unknown
  | hard number =>
      unfold Numbering.fromVar
      split
      · contradiction
      · split
        · exact keeps_fromConst st 0
        · exact unknown

theorem keeps_fromImm (st : Numbering) (imm : Imm) : Keeps st (st.fromImm imm).2 := by
  cases imm with
  | resolved value => exact keeps_fromConst st value
  | unresolved bits value => exact keeps_createUndef st

theorem keeps_fromAddress (st : Numbering) (reg : Reg) : Keeps st (st.fromAddress reg).2 := by
  cases reg with
  | var v => exact keeps_fromVar st (.var v)
  | hard number => exact keeps_createUndef st

theorem keeps_fromOffset (st : Numbering) (reg : Reg) : Keeps st (st.fromOffset reg).2 := by
  unfold Numbering.fromOffset
  split
  · exact keeps_fromConst st 0
  · exact keeps_fromAddress st reg

theorem keeps_fromBinary (st : Numbering) (instr : Instr) (vn1 vn2 : Nat) :
    Keeps st (st.fromBinary instr vn1 vn2).2 := by
  have skipped : Keeps st { st with currentVn := st.currentVn + 1 } :=
    ⟨Nat.le_succ _, fun _ _ => rfl, [], rfl⟩
  unfold Numbering.fromBinary
  simp only
  split
  · exact skipped
  · exact skipped.trans (keeps_register _ _ _)

theorem keeps_store (st : Numbering) (vn1 vn2 : Nat) : Keeps st (st.store vn1 vn2) :=
  ⟨Nat.le_succ _, fun _ _ => rfl, [], rfl⟩

theorem keeps_isConstant (instr : Instr) (st : Numbering) : Keeps st (isConstant instr st).2 := by
  unfold isConstant
  split
  · split
    · rename_i src1 src2 _
      have first := keeps_fromVar st src1
      simp only
      split
      · exact first
      · split <;> exact first.trans (keeps_fromVar _ src2)
    · rename_i src simm13 _
      have first := keeps_fromVar st src
      simp only
      split
      · exact first
      · split <;> exact first
    · exact .refl st
  · exact .refl st

theorem keeps_constantPropagation (instr : Instr) (st : Numbering) :
    Keeps st (constantPropagation instr st).2 := by
  have both : ∀ src1 src2 : Reg, Keeps st ((st.fromVar src1).2.fromVar src2).2 :=
    fun src1 src2 => (keeps_fromVar st src1).trans (keeps_fromVar _ src2)
  unfold constantPropagation
  split
  · exact .refl st
  · split
    · split
      · rename_i src1 src2 _
        simp only
        split
        · exact .refl st
        · split
          · split <;> exact both src1 src2
          · exact both src1 src2
      · rename_i src1 src2 _
        simp only
        split
        · exact .refl st
        · split
          · split <;> exact both src1 src2
          · exact both src1 src2
      · rename_i src1 src2 _ _
        simp only
        split
        · exact .refl st
        · split
          · split <;> exact both src1 src2
          · exact both src1 src2
      · exact .refl st
    · exact .refl st

theorem keeps_call (rets : List Var) (st : Numbering) :
    Keeps st (rets.foldl (fun st ret => st.erase (.var ret)) st) := by
  induction rets generalizing st with
  | nil => exact .refl st
  | cons ret rest ih => exact (keeps_erase st (.var ret)).trans (ih _)

theorem Keeps.insert {result : Nat × Numbering} (keeps : Keeps st result.2) (reg : Reg) :
    Keeps st (result.2.insert reg result.1) :=
  keeps.trans (keeps_insert _ _ _)

theorem keeps_assignVn (instr : Instr) (st : Numbering) : Keeps st (assignVn instr st) := by
  have constant : ∀ value next, isConstant instr st = (value, next) → Keeps st next := by
    intro value next result
    have keeps := keeps_isConstant instr st
    rw [result] at keeps
    exact keeps
  unfold assignVn
  split
  · split
    · exact keeps_erase st _
    · exact .refl st
  · split
    · rename_i rets _
      have filtered : Keeps st { st with table := st.table.filter survivesCall } :=
        .of_eq rfl rfl rfl
      exact filtered.trans (keeps_call rets _)
    · rename_i src1 src2 _ _
      exact ((keeps_fromAddress st src1).trans (keeps_fromAddress _ src2)).trans
        (keeps_store _ _ _)
    · rename_i src1 _ simm13 _
      exact ((keeps_fromAddress st src1).trans (keeps_fromImm _ simm13)).trans
        (keeps_store _ _ _)
    · rename_i imm22 _
      split
      · split
        · exact (keeps_fromImm st imm22.high).insert _
        · exact .refl st
      · exact .refl st
    · rename_i src1 src2 _
      split
      · split
        · exact (((keeps_fromAddress st src1).trans (keeps_fromOffset _ src2)).trans
            (keeps_fromBinary _ _ _ _)).insert _
        · exact .refl st
      · exact .refl st
    · rename_i src simm13 _
      split
      · split
        · exact (keeps_fromVar st src).insert _
        · split
          · exact (((keeps_fromAddress st src).trans (keeps_fromImm _ simm13)).trans
              (keeps_fromBinary _ _ _ _)).insert _
          · split
            · rename_i value next result
              exact ((constant _ _ result).trans (keeps_fromConst next value)).insert _
            · rename_i next result
              exact ((((constant _ _ result).trans (keeps_fromVar next src)).trans
                (keeps_fromImm _ simm13)).trans (keeps_fromBinary _ _ _ _)).insert _
      · exact .refl st
    · rename_i src1 src2 _
      split
      · split
        · exact (keeps_fromVar st src1).insert _
        · split
          · exact (keeps_fromVar st src2).insert _
          · split
            · rename_i value next result
              exact ((constant _ _ result).trans (keeps_fromConst next value)).insert _
            · rename_i next result
              exact ((((constant _ _ result).trans (keeps_fromVar next src1)).trans
                (keeps_fromVar _ src2)).trans (keeps_fromBinary _ _ _ _)).insert _
      · exact .refl st
    · exact .refl st

theorem Keeps.remember (st : Numbering) (src : Reg) {number : Numbering → Nat × Numbering}
    (keeps : ∀ st, Keeps st (number st).2) : Keeps st (st.remember src number) := by
  have first : Keeps st { (st.fromVar src).2 with
      prevLeft := (st.fromVar src).2.rhsOf (st.fromVar src).1 } :=
    (keeps_fromVar st src).trans (.of_eq rfl rfl rfl)
  exact (first.trans (keeps _)).trans (.of_eq rfl rfl rfl)

theorem keeps_eliminateBranch (instr : Instr) (st : Numbering) :
    Keeps st (eliminateBranch instr st).2 := by
  unfold eliminateBranch
  split
  · rename_i src1 src2 _ _
    exact Keeps.remember st src1 (fun st => keeps_fromVar st src2)
  · rename_i src simm13 _ _
    exact Keeps.remember st src (fun st => keeps_fromImm st simm13)
  · split
    · exact .refl st
    · split
      · exact ⟨Nat.le_refl _, fun _ _ => rfl, [_], rfl⟩
      · exact .refl st
  · exact .refl st

theorem keeps_visit (instr : Instr) (st : Numbering) : Keeps st (visit instr st).2 :=
  ((keeps_constantPropagation instr st).trans (keeps_assignVn _ _)).trans
    (keeps_eliminateBranch _ _)

theorem keeps_enter (st : Numbering) (count : Nat) : Keeps st (st.enter count) := by
  unfold Numbering.enter
  split <;> exact .of_eq rfl rfl rfl

structure Resumes (count : Nat) (st start : Numbering) : Prop where
  table : start.table = st.table
  map : start.map = st.map
  currentVn : start.currentVn = st.currentVn
  rhsOf : ∀ n < st.currentVn, start.rhsOf n = st.rhsOf n
  stack : start.stack = st.stack
  previous : count = 1 → start.prevLeft = st.prevLeft ∧ start.prevRight = st.prevRight

theorem Resumes.refl (count : Nat) (st : Numbering) : Resumes count st st :=
  ⟨rfl, rfl, rfl, fun _ _ => rfl, rfl, fun _ => ⟨rfl, rfl⟩⟩

theorem Resumes.trans {count : Nat} {last : Numbering} (first : Resumes count st next)
    (second : Resumes count next last) : Resumes count st last where
  table := second.table.trans first.table
  map := second.map.trans first.map
  currentVn := second.currentVn.trans first.currentVn
  rhsOf := fun n below =>
    (second.rhsOf n (first.currentVn ▸ below)).trans (first.rhsOf n below)
  stack := second.stack.trans first.stack
  previous := fun one =>
    ⟨(second.previous one).1.trans (first.previous one).1,
      (second.previous one).2.trans (first.previous one).2⟩

theorem Resumes.leave {count : Nat} (branches : count ≠ 1) (keeps : Keeps (st.enter count) next) :
    Resumes count st (st.leave next count) := by
  have entered := (keeps_enter st count).trans keeps
  obtain ⟨pushed, equal⟩ := entered.stack
  unfold Numbering.leave
  rw [if_neg branches]
  refine ⟨rfl, rfl, rfl, entered.rhsOf, ?_, fun one => absurd one branches⟩
  simp only [equal, List.length_append, Nat.add_sub_cancel, List.drop_left]

theorem traverse_node {targets : List Region} {visited : Visited} {last : Numbering}
    (traversed : traverse (.node instr targets) st = some (visited, last)) :
    (visit instr st).2.Within ∧ ∃ others,
      traverseTargets targets.length targets (visit instr st).2 = some (others, last) ∧
        visited = .node instr st (visit instr st).1 others := by
  simp only [traverse] at traversed
  split at traversed
  next within =>
    split at traversed
    next others last' equal =>
      cases traversed
      exact ⟨within, others, equal, rfl⟩
    next => contradiction
  next => contradiction

theorem traverseTargets_cons {count : Nat} {target : Region} {rest : List Region}
    {visited : List Visited} {last : Numbering}
    (traversed : traverseTargets count (target :: rest) st = some (visited, last)) :
    ∃ first after others, traverse target (st.enter count) = some (first, after) ∧
      traverseTargets count rest (st.leave after count) = some (others, last) ∧
        visited = first :: others := by
  simp only [traverseTargets] at traversed
  split at traversed
  next first after equal =>
    split at traversed
    next others last' equal' =>
      cases traversed
      exact ⟨first, after, others, equal, equal', rfl⟩
    next => contradiction
  next => contradiction

theorem keeps_leave {count : Nat} (keeps : Keeps (st.enter count) next) :
    Keeps st (st.leave next count) := by
  by_cases single : count = 1
  · unfold Numbering.leave
    rw [if_pos single]
    exact (keeps_enter st count).trans keeps
  · have resumes := Resumes.leave single keeps
    exact ⟨Nat.le_of_eq resumes.currentVn.symm, resumes.rhsOf, [], resumes.stack⟩

mutual

theorem keeps_traverse : ∀ (region : Region) (st : Numbering) {visited : Visited}
    {last : Numbering}, traverse region st = some (visited, last) → Keeps st last
  | .exit, st, _, _, traversed => by
      cases traversed
      exact .refl st
  | .node instr targets, st, _, _, traversed => by
      obtain ⟨-, others, equal, -⟩ := traverse_node traversed
      exact (keeps_visit instr st).trans (keeps_traverseTargets targets.length targets _ equal)

theorem keeps_traverseTargets : ∀ (count : Nat) (targets : List Region) (st : Numbering)
    {visited : List Visited} {last : Numbering},
      traverseTargets count targets st = some (visited, last) → Keeps st last
  | count, [], st, _, _, traversed => by
      cases traversed
      exact .refl st
  | count, target :: rest, st, _, _, traversed => by
      obtain ⟨first, after, others, equal, equal', -⟩ := traverseTargets_cons traversed
      exact (keeps_leave (keeps_traverse target _ equal)).trans
        (keeps_traverseTargets count rest _ equal')

end

theorem length_traverseTargets {count : Nat} {targets : List Region} {visited : List Visited}
    {last : Numbering} (traversed : traverseTargets count targets st = some (visited, last)) :
    visited.length = targets.length := by
  induction targets generalizing st visited with
  | nil =>
      cases traversed
      rfl
  | cons target rest ih =>
      obtain ⟨first, after, others, -, equal, rfl⟩ := traverseTargets_cons traversed
      exact congrArg (· + 1) (ih equal)

theorem mem_traverseTargets {count : Nat} {targets : List Region} {visited : Visited}
    {others : List Visited} {last : Numbering} (single : count = 1 → targets.length ≤ 1)
    (traversed : traverseTargets count targets st = some (others, last))
    (member : visited ∈ others) :
    ∃ region start after, traverse region (start.enter count) = some (visited, after) ∧
      Resumes count st start := by
  induction targets generalizing st others with
  | nil =>
      cases traversed
      contradiction
  | cons target rest ih =>
      obtain ⟨first, after, others, equal, equal', rfl⟩ := traverseTargets_cons traversed
      rcases List.mem_cons.mp member with rfl | later
      · exact ⟨target, st, after, equal, .refl count st⟩
      · by_cases one : count = 1
        · have empty : rest = [] :=
            List.eq_nil_of_length_eq_zero (Nat.le_zero.mp (Nat.le_of_succ_le_succ (single one)))
          subst empty
          cases equal'
          contradiction
        · obtain ⟨region, start, after', equal'', resumes⟩ :=
            ih (fun absurd => (one absurd).elim) equal' later
          have left := Resumes.leave one (keeps_traverse target (st.enter count) equal)
          exact ⟨region, start, after', equal'', left.trans resumes⟩

end

end LaTTe.Translator.Vn
