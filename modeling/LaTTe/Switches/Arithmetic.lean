import LaTTe.Switches.Emission

namespace LaTTe.Switches

open LaTTe.Sparc (Word Instr State Environment runLine Op Operand Cond Icc)
open LaTTe.Sequences (Reg g0 hi lo hi_or_lo)

variable {F : Type}

/-! The instructions that compare the key and that read a jump table. -/

/-- `APPEND_IMM_ARITHMETIC_INSTR`. -/
def immArithmetic (op : Op) (target source : Reg) (imm : Word) (idx : Int) : List (Instr Reg F) :=
  if -0x1000 ≤ imm.toInt ∧ imm.toInt ≤ 0xfff then
    [.alu op target source (.imm imm)]
  else
    [.sethi (.it idx) (hi imm), .alu .or (.it (idx + 1)) (.it idx) (.imm (lo imm)),
      .alu op target source (.reg (.it (idx + 1)))]

def rangeTest (opsTop : Int) (low high : Word) : List (Instr Reg F) :=
  immArithmetic .sub (.it 0) (.is opsTop) low 1 ++
    immArithmetic .subcc g0 (.it 0) (high - low) 1

/-- The address of an entry of the table at `jumpTable`. -/
def tableLoad (jumpTable : Word) : List (Instr Reg F) :=
  [.sethi (.it 1) (hi jumpTable), .alu .or (.rt 2) (.it 1) (.imm (lo jumpTable)),
    .alu .sll (.it 3) (.it 0) (.imm 2), .load .w (.rt 4) (.rt 2) (.reg (.it 3))]

structure Kept (s s' : State Reg F) : Prop where
  mem : s'.mem = s.mem
  read : ∀ r, (∀ type a, r ≠ .var type .temp a) → s'.read r = s.read r

namespace Kept

variable {s s' s'' : State Reg F}

theorem refl (s : State Reg F) : Kept s s := ⟨rfl, fun _ _ => rfl⟩

theorem trans (first : Kept s s') (second : Kept s' s'') : Kept s s'' where
  mem := second.mem.trans first.mem
  read r other := (second.read r other).trans (first.read r other)

end Kept

theorem kept_write (s : State Reg F) (type : Translator.VarType) (a : Int) (value : Word) :
    Kept s (s.write (.var type .temp a) value) where
  mem := State.mem_write ..
  read r other := by
    rw [State.read_write, if_neg]
    exact fun same => other type a same.1

theorem kept_alu (s : State Reg F) (op : Op) (type : Translator.VarType) (a : Int) (src : Reg)
    (operand : Operand Reg) : Kept s (s.alu op (.var type .temp a) src operand) where
  mem := State.mem_alu ..
  read r other := by
    rw [State.read_alu, if_neg]
    exact fun same => other type a same.1

theorem kept_alu_g0 (s : State Reg F) (op : Op) (src : Reg) (operand : Operand Reg) :
    Kept s (s.alu op g0 src operand) where
  mem := State.mem_alu ..
  read r other := by
    rw [State.read_alu, if_neg]
    exact fun same => same.2 rfl

section Runs

variable (environment : Environment F) (s : State Reg F)

theorem run_immArithmetic {op : Op} (plain : op.divides = false) (unshifted : op.shifts = false)
    (target source : Reg) (imm : Word) (idx : Int) (other : source ≠ .it idx)
    (other' : source ≠ .it (idx + 1)) :
    ∃ t : State Reg F, Kept s t ∧ t.icc = s.icc ∧ t.y = s.y ∧ t.read source = s.read source ∧
      runLine environment (immArithmetic op target source imm idx) s =
        some (t.alu op target source (.imm imm)) := by
  unfold immArithmetic
  split
  · refine ⟨s, .refl s, rfl, rfl, rfl, ?_⟩
    rw [Sparc.runLine_alu environment s plain (Sparc.isLong_of_not_shifts unshifted _)]
    rfl
  · set first := s.write (.it idx) (hi imm <<< 10) with firstEq
    set t := first.alu .or (.it (idx + 1)) (.it idx) (.imm (lo imm)) with tEq
    have kept : Kept s t := (kept_write s .int idx _).trans (kept_alu first .or .int (idx + 1) _ _)
    have high : first.read (.it idx) = hi imm <<< 10 := by
      rw [firstEq, State.read_write, if_pos ⟨rfl, by rintro ⟨⟩⟩]
    have value : t.read (.it (idx + 1)) = imm := by
      rw [tEq, State.read_alu, if_pos ⟨rfl, by rintro ⟨⟩⟩, high]
      exact hi_or_lo imm
    have same : t.read source = s.read source := by
      rw [tEq, State.read_alu, if_neg fun equal => other' equal.1, firstEq, State.read_write,
        if_neg fun equal => other equal.1]
    have operand : t.alu op target source (.reg (.it (idx + 1))) =
        t.alu op target source (.imm imm) := by
      simp only [State.alu, State.operand_reg, State.operand_imm, value]
    refine ⟨t, kept, ?_, ?_, same, ?_⟩
    · rw [tEq, State.icc_alu, firstEq, State.icc_write]
      rfl
    · rw [tEq, State.y_alu, firstEq, State.y_write]
      rfl
    · have loaded : runLine environment [.sethi (.it idx) (hi imm)] s = some first := rfl
      rw [← operand, Sparc.runLine_cons loaded, Sparc.runLine_alu environment first rfl rfl,
        Sparc.runLine_alu environment _ plain rfl]
      rfl

theorem run_compare (source : Reg) (imm : Word) (idx : Int) (other : source ≠ .it idx)
    (other' : source ≠ .it (idx + 1)) :
    ∃ s' : State Reg F, Kept s s' ∧ s'.icc = Icc.sub (s.read source) imm false ∧
      s'.read source = s.read source ∧
      runLine environment (immArithmetic .subcc g0 source imm idx) s = some s' := by
  obtain ⟨t, kept, _, _, same, run⟩ :=
    run_immArithmetic environment s (rfl : Op.subcc.divides = false) rfl g0 source imm idx other
      other'
  refine ⟨_, kept.trans (kept_alu_g0 t _ _ _), ?_, ?_, run⟩
  · rw [State.icc_alu, same]
    rfl
  · rw [State.read_alu, if_neg fun equal => equal.2 rfl, same]

theorem run_rangeTest (opsTop : Int) (low high : Word) :
    ∃ s' : State Reg F, Kept s s' ∧
      s'.icc = Icc.sub (s.read (.is opsTop) - low) (high - low) false ∧
      s'.read (.it 0) = s.read (.is opsTop) - low ∧
      runLine environment (rangeTest opsTop low high) s = some s' := by
  obtain ⟨t, kept, _, _, same, run⟩ :=
    run_immArithmetic environment s (rfl : Op.sub.divides = false) rfl (.it 0) (.is opsTop) low
      1 nofun nofun
  set first := t.alu .sub (.it 0) (.is opsTop) (.imm low) with firstEq
  have distance : first.read (.it 0) = s.read (.is opsTop) - low := by
    rw [firstEq, State.read_alu, if_pos ⟨rfl, nofun⟩, same]
    rfl
  obtain ⟨s', kept', icc, same', run'⟩ :=
    run_compare environment first (.it 0) (high - low) 1 (by decide) (by decide)
  refine ⟨s', (kept.trans (kept_alu t .sub .int 0 _ _)).trans kept', ?_, ?_, ?_⟩
  · rw [icc, distance]
  · rw [same', distance]
  · rw [rangeTest, Sparc.runLine_append, run]
    exact run'

theorem run_tableLoad (jumpTable : Word) :
    ∃ s' : State Reg F, Kept s s' ∧
      s'.read (.rt 4) = s.mem.load (jumpTable + s.read (.it 0) <<< 2) .w ∧
      runLine environment (tableLoad jumpTable) s = some s' := by
  set first := s.write (.it 1) (hi jumpTable <<< 10) with firstEq
  set second := first.alu .or (.rt 2) (.it 1) (.imm (lo jumpTable)) with secondEq
  set third := second.alu .sll (.it 3) (.it 0) (.imm 2) with thirdEq
  have base : third.read (.rt 2) = jumpTable := by
    have high : first.read (.it 1) = hi jumpTable <<< 10 := by
      rw [firstEq, State.read_write, if_pos ⟨rfl, nofun⟩]
    rw [thirdEq, State.read_alu, if_neg nofun, secondEq, State.read_alu,
      if_pos ⟨rfl, nofun⟩, high]
    exact hi_or_lo jumpTable
  have index : third.read (.it 3) = s.read (.it 0) <<< 2 := by
    have same : second.read (.it 0) = s.read (.it 0) := by
      rw [secondEq, State.read_alu, if_neg nofun, firstEq, State.read_write, if_neg (by decide)]
    rw [thirdEq, State.read_alu, if_pos ⟨rfl, nofun⟩, same]
    rfl
  have mem : third.mem = s.mem := by
    rw [thirdEq, State.mem_alu, secondEq, State.mem_alu, firstEq, State.mem_write]
  have kept : Kept s third :=
    ((kept_write s .int 1 _).trans (kept_alu first .or .ref 2 _ _)).trans
      (kept_alu second .sll .int 3 _ _)
  refine ⟨third.write (.rt 4) (third.mem.load (jumpTable + s.read (.it 0) <<< 2) .w),
    kept.trans (kept_write third .ref 4 _), ?_, ?_⟩
  · rw [State.read_write, if_pos ⟨rfl, nofun⟩, mem]
  · have loaded : runLine environment [.sethi (.it 1) (hi jumpTable)] s = some first := rfl
    rw [tableLoad, Sparc.runLine_cons loaded, Sparc.runLine_alu environment first rfl rfl,
      Sparc.runLine_alu environment _ rfl rfl, ← secondEq, ← thirdEq]
    simp only [runLine, Instr.exec, State.operand_reg, base, index]

end Runs

end LaTTe.Switches
