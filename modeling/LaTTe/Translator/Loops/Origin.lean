import LaTTe.Data.Circular
import LaTTe.Translator.Loops.Reaching

namespace LaTTe.Translator.Loops

open LaTTe.Data

/-! Tracing a register to its origin. -/

namespace InstrNode

variable (instr : InstrNode)

def copyOperand : Option Nat :=
  if instr.isICopy then some 0 else if instr.isFCopy then some 1 else none

def moved : Option Reg :=
  if instr.isFCopy then instr.srcReg 1
  else if instr.isICopy then
    match instr.format with
    | .format6 _ src1 src2 => if src1 = g0 then some src2 else some src1
    | _ => instr.srcReg 0
  else
    none

theorem not_isFCopy (isICopy : instr.isICopy = true) : ¬ instr.isFCopy = true := by
  rw [InstrNode.isICopy, Bool.and_eq_true, decide_eq_true_eq] at isICopy
  simp [isFCopy, isICopy.1]

theorem srcReg_copyOperand {operand : Nat} (copy : instr.copyOperand = some operand) :
    instr.srcReg operand = instr.moved ∨
      instr.srcReg operand = some g0 ∧ ∃ src, instr.moved = some src := by
  rw [copyOperand] at copy
  split at copy
  · rename_i isICopy
    cases copy
    rw [moved, if_neg (instr.not_isFCopy isICopy), if_pos isICopy]
    split
    · rename_i dest src1 src2 format
      have first : instr.srcReg 0 = some src1 := by simp [srcReg, srcRegs, format]
      rw [first]
      by_cases zero : src1 = g0
      · rw [if_pos zero, zero]
        exact Or.inr ⟨rfl, src2, rfl⟩
      · rw [if_neg zero]
        exact Or.inl rfl
    · exact Or.inl rfl
  · split at copy
    · rename_i isFCopy
      cases copy
      rw [moved, if_pos isFCopy]
      exact Or.inl rfl
    · cases copy

end InstrNode

namespace Body

variable {body : Body}

def CopiedFrom (body : Body) (origin use : Nat × Nat) : Prop :=
  origin.1 < body.size ∧ (body.instr origin.1).copyOperand = some origin.2 ∧
    ∃ (v : Var) (distance : Nat), (body.instr use.1).srcReg use.2 = some (.var v) ∧
      body.ReachingDef v use.1 origin.1 distance

inductive ReadAt (body : Body) : Nat × Nat → Nat × Nat → Nat → Prop where
  | here (use : Nat × Nat) : ReadAt body use use 0
  | copied {use final : Nat × Nat} {v : Var} {j operand distance far : Nat}
      (source : (body.instr use.1).srcReg use.2 = some (.var v))
      (reaches : body.ReachingDef v use.1 j distance)
      (copy : (body.instr j).copyOperand = some operand)
      (read : ReadAt body (j, operand) final far) :
      ReadAt body use final (distance + far)

section

variable {getOrg : Nat → Nat → Finset Nat → Option (Option Reg × Finset Nat)}
variable {srcReg : Option Reg} {defs : List Nat}

theorem scanDefs_none (none : ∀ j ∈ defs, (body.instr j).destReg ≠ srcReg)
    (orgReg : Option (Option Reg)) (defInstrs : Finset Nat) :
    body.scanDefs getOrg srcReg defs orgReg defInstrs =
      some (orgReg.getD srcReg, defInstrs) := by
  induction defs with
  | nil => rfl
  | cons j defs ih =>
      rw [List.forall_mem_cons] at none
      rw [scanDefs, if_neg none.1]
      exact ih none.2

theorem scanDefs_one {j : Nat} (distinct : defs.Nodup) (listed : j ∈ defs)
    (dest : (body.instr j).destReg = srcReg)
    (only : ∀ k ∈ defs, (body.instr k).destReg = srcReg → k = j) (defInstrs : Finset Nat) :
    body.scanDefs getOrg srcReg defs none defInstrs =
      body.curOrgReg getOrg srcReg j defInstrs := by
  induction defs with
  | nil => contradiction
  | cons k defs ih =>
      rw [List.nodup_cons] at distinct
      rw [scanDefs]
      by_cases here : (body.instr k).destReg = srcReg
      · obtain rfl := only k List.mem_cons_self here
        have rest : ∀ other ∈ defs, (body.instr other).destReg ≠ srcReg := by
          intro other member same
          obtain rfl := only other (List.mem_cons_of_mem _ member) same
          exact distinct.1 member
        rw [if_pos here, Option.bind_eq_bind]
        cases body.curOrgReg getOrg srcReg k defInstrs with
        | none => rfl
        | some result => exact scanDefs_none rest _ _
      · rw [if_neg here]
        refine ih distinct.2 ?_ fun other member => only other (List.mem_cons_of_mem _ member)
        refine (List.mem_cons.mp listed).resolve_left ?_
        intro same
        subst same
        exact here dest

end

variable {i srcNum : Nat} {defInstrs : Finset Nat}

theorem getOrgSrcReg_outside (inside : i < body.size)
    (outside : ∀ v, (body.instr i).srcReg srcNum = some (.var v) →
      ∀ j distance, ¬ body.ReachingDef v i j distance) (fuel : Nat) :
    body.getOrgSrcReg body.buildVarUdChain (fuel + 1) i srcNum defInstrs =
      some ((body.instr i).srcReg srcNum, defInstrs) := by
  rw [getOrgSrcReg]
  apply scanDefs_none
  intro j member same
  have chained : j ∈ body.buildVarUdChain i := by simpa using (List.mem_filter.mp member).2
  obtain ⟨v, distance, reaches⟩ := exists_of_mem_chain inside chained
  rw [reaches.destReg] at same
  exact outside v same.symm j distance reaches

theorem getOrgSrcReg_reached (inside : i < body.size) {v : Var} {j distance : Nat}
    (source : (body.instr i).srcReg srcNum = some (.var v))
    (reaches : body.ReachingDef v i j distance) (fuel : Nat) :
    body.getOrgSrcReg body.buildVarUdChain (fuel + 1) i srcNum defInstrs =
      body.curOrgReg (body.getOrgSrcReg body.buildVarUdChain fuel) (some (.var v)) j
        defInstrs := by
  have operand : .var v ∈ (body.instr i).srcRegs := List.mem_of_getElem? source
  have chained := (mem_chain_iff inside operand).mpr ⟨distance, reaches⟩
  rw [getOrgSrcReg, source]
  apply scanDefs_one
  · exact List.nodup_range.filter _
  · rw [List.mem_filter, List.mem_range]
    exact ⟨reaches.lt_size inside, by simpa using chained.1⟩
  · exact chained.2
  · intro k member dest
    have listed : k ∈ body.buildVarUdChain i := by simpa using (List.mem_filter.mp member).2
    obtain ⟨other, also⟩ := (mem_chain_iff inside operand).mp ⟨listed, dest⟩
    exact (also.unique reaches).1

theorem curOrgReg_copy {getOrg : Nat → Nat → Finset Nat → Option (Option Reg × Finset Nat)}
    {srcReg : Option Reg} {j operand : Nat}
    (copy : (body.instr j).copyOperand = some operand) :
    body.curOrgReg getOrg srcReg j defInstrs = getOrg j operand defInstrs := by
  rw [InstrNode.copyOperand] at copy
  rw [curOrgReg]
  split at copy
  · rename_i isICopy
    cases copy
    rw [if_pos isICopy]
  · rename_i notICopy
    rw [if_neg notICopy]
    split at copy
    · rename_i isFCopy
      cases copy
      rw [if_pos isFCopy]
    · cases copy

theorem curOrgReg_inside {getOrg : Nat → Nat → Finset Nat → Option (Option Reg × Finset Nat)}
    {srcReg : Option Reg} {j : Nat} (noCopy : (body.instr j).copyOperand = none) :
    body.curOrgReg getOrg srcReg j defInstrs = some (srcReg, insert j defInstrs) := by
  rw [InstrNode.copyOperand] at noCopy
  rw [curOrgReg]
  split at noCopy
  · cases noCopy
  · rename_i notICopy
    rw [if_neg notICopy]
    split at noCopy
    · cases noCopy
    · rename_i notFCopy
      rw [if_neg notFCopy]

def Last (body : Body) (use : Nat × Nat) : Prop :=
  ∀ origin, ¬ body.CopiedFrom origin use

theorem copiedFrom_of_reaches {use : Nat × Nat} (inside : use.1 < body.size) {v : Var}
    {j operand distance : Nat} (source : (body.instr use.1).srcReg use.2 = some (.var v))
    (reaches : body.ReachingDef v use.1 j distance)
    (copy : (body.instr j).copyOperand = some operand) : body.CopiedFrom (j, operand) use :=
  ⟨reaches.lt_size inside, copy, v, distance, source, reaches⟩

theorem getOrgSrcReg_returns {use : Nat × Nat} (ends : Acc body.CopiedFrom use)
    (inside : use.1 < body.size) :
    ∃ fuel, ∀ defInstrs, ∃ result,
      body.getOrgSrcReg body.buildVarUdChain fuel use.1 use.2 defInstrs = some result := by
  induction ends with
  | intro use _ ih =>
      by_cases reached : ∃ (v : Var) (j distance : Nat),
          (body.instr use.1).srcReg use.2 = some (.var v) ∧
            body.ReachingDef v use.1 j distance
      · obtain ⟨v, j, distance, source, reaches⟩ := reached
        cases copy : (body.instr j).copyOperand with
        | none =>
            refine ⟨1, fun defInstrs => ⟨(some (.var v), insert j defInstrs), ?_⟩⟩
            rw [getOrgSrcReg_reached inside source reaches, curOrgReg_inside copy]
        | some operand =>
            obtain ⟨fuel, returns⟩ :=
              ih _ (copiedFrom_of_reaches inside source reaches copy) (reaches.lt_size inside)
            refine ⟨fuel + 1, fun defInstrs => ?_⟩
            rw [getOrgSrcReg_reached inside source reaches, curOrgReg_copy copy]
            exact returns defInstrs
      · refine ⟨1, fun defInstrs => ⟨_, getOrgSrcReg_outside inside ?_ 0⟩⟩
        intro v source j distance reaches
        exact reached ⟨v, j, distance, source, reaches⟩

/-- What is returned is the register that was read at the end of the trace. -/
theorem getOrgSrcReg_returned {fuel : Nat} (inside : i < body.size) {org : Option Reg}
    {defInstrs' : Finset Nat}
    (returned : body.getOrgSrcReg body.buildVarUdChain fuel i srcNum defInstrs =
      some (org, defInstrs')) :
    Acc body.CopiedFrom (i, srcNum) ∧ ∃ (final : Nat × Nat) (far : Nat),
      body.ReadAt (i, srcNum) final far ∧ body.Last final ∧
        org = (body.instr final.1).srcReg final.2 := by
  induction fuel generalizing i srcNum with
  | zero => cases returned
  | succ fuel ih =>
      have here : body.Last (i, srcNum) → org = (body.instr i).srcReg srcNum →
          Acc body.CopiedFrom (i, srcNum) ∧ ∃ (final : Nat × Nat) (far : Nat),
            body.ReadAt (i, srcNum) final far ∧ body.Last final ∧
              org = (body.instr final.1).srcReg final.2 := by
        intro last same
        refine ⟨Acc.intro _ fun origin copied => absurd copied (last origin), ?_⟩
        exact ⟨_, _, .here _, last, same⟩
      by_cases reached : ∃ (v : Var) (j distance : Nat),
          (body.instr i).srcReg srcNum = some (.var v) ∧ body.ReachingDef v i j distance
      · obtain ⟨v, j, distance, source, reaches⟩ := reached
        rw [getOrgSrcReg_reached inside source reaches] at returned
        have single : ∀ origin, body.CopiedFrom origin (i, srcNum) →
            origin.1 = j ∧ (body.instr j).copyOperand = some origin.2 := by
          intro origin ⟨_, copy, w, other, also, again⟩
          obtain rfl : v = w := by simpa [source] using also
          obtain ⟨rfl, _⟩ := reaches.unique again
          exact ⟨rfl, copy⟩
        cases copy : (body.instr j).copyOperand with
        | none =>
            rw [curOrgReg_inside copy] at returned
            cases returned
            refine here ?_ source.symm
            intro origin copied
            obtain ⟨_, isCopy⟩ := single origin copied
            rw [copy] at isCopy
            cases isCopy
        | some operand =>
            rw [curOrgReg_copy copy] at returned
            obtain ⟨ends, final, far, read, last, same⟩ := ih (reaches.lt_size inside) returned
            refine ⟨Acc.intro _ fun origin copied => ?_, final, distance + far, ?_, last, same⟩
            · obtain ⟨atJ, isCopy⟩ := single origin copied
              rw [copy] at isCopy
              have whole : origin = (j, operand) :=
                Prod.ext atJ (Option.some.inj isCopy).symm
              rw [whole]
              exact ends
            · exact .copied source reaches copy read
      · have outside : ∀ v, (body.instr i).srcReg srcNum = some (.var v) →
            ∀ j distance, ¬ body.ReachingDef v i j distance := by
          intro v source j distance reaches
          exact reached ⟨v, j, distance, source, reaches⟩
        rw [getOrgSrcReg_outside inside outside] at returned
        cases returned
        refine here ?_ rfl
        intro origin ⟨_, _, v, distance, source, reaches⟩
        exact outside v source _ _ reaches

theorem ReadAt.le_of_last {use final last : Nat × Nat} {far farther : Nat}
    (inside : use.1 < body.size) (read : body.ReadAt use final far)
    (whole : body.ReadAt use last farther) (isLast : body.Last last) :
    far ≤ farther ∧ (body.Last final → final = last ∧ far = farther) := by
  induction read generalizing farther with
  | here use =>
      refine ⟨Nat.zero_le _, fun ended => ?_⟩
      cases whole with
      | here => exact ⟨rfl, rfl⟩
      | copied source reaches copy _ =>
          exact absurd (copiedFrom_of_reaches inside source reaches copy) (ended _)
  | copied source reaches copy _ ih =>
      cases whole with
      | here => exact absurd (copiedFrom_of_reaches inside source reaches copy) (isLast _)
      | copied source' reaches' copy' whole =>
          rw [source] at source'
          cases source'
          obtain ⟨rfl, rfl⟩ := reaches.unique reaches'
          rw [copy] at copy'
          cases copy'
          obtain ⟨shorter, same⟩ := ih (reaches.lt_size inside) whole
          refine ⟨Nat.add_le_add_left shorter _, fun ended => ?_⟩
          obtain ⟨sameFinal, sameFar⟩ := same ended
          exact ⟨sameFinal, congrArg _ sameFar⟩

end Body

end LaTTe.Translator.Loops
