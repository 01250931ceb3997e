import LaTTe.Sequences.Emit

namespace LaTTe.Sequences

open LaTTe.Sparc
open Emit Reg

variable {F : Type}

/-! Arithmetic on pairs of words. -/

def translateLadd (opsTop : Int) : Emit F Unit := do
  let _ ← format6 .addcc (ivs (opsTop - 2)) (ivs (opsTop - 2)) (ivs opsTop)
  let _ ← format6 .addx (ls (opsTop - 3)) (ls (opsTop - 3)) (ls (opsTop - 1))

def translateLsub (opsTop : Int) : Emit F Unit := do
  let _ ← format6 .subcc (ivs (opsTop - 2)) (ivs (opsTop - 2)) (ivs opsTop)
  let _ ← format6 .subx (ls (opsTop - 3)) (ls (opsTop - 3)) (ls (opsTop - 1))

def translateLmul (opsTop : Int) : Emit F Unit := do
  let _ ← format6 .umul (it 4) (ivs (opsTop - 2)) (ivs opsTop)
  let _ ← append (.rdy (it 0))
  let _ ← format6 .smul (it 1) (ivs (opsTop - 2)) (ls (opsTop - 1))
  let _ ← format6 .add (it 2) (it 0) (it 1)
  let _ ← format6 .smul (it 3) (ivs opsTop) (ls (opsTop - 3))
  let _ ← format6 .add (ls (opsTop - 3)) (it 2) (it 3)
  let _ ← format6 .add (ivs (opsTop - 2)) (it 4) g0

def translateLcmp (opsTop : Int) : Emit F Unit := do
  let _ ← format6 .subcc g0 (ls (opsTop - 3)) (ls (opsTop - 1))
  let branch1 ← format3 .g
  let branch2 ← format3 .l
  let _ ← format6 .subcc g0 (ivs (opsTop - 2)) (ivs opsTop)
  let branch3 ← format3 .gu
  let branch4 ← format3 .cs
  resume branch4
  let write0 ← format5 .add (it 0) g0 0
  resume branch1
  let write1 ← format5 .add (it 0) g0 1
  connect branch3 write1
  resume branch2
  let writeM1 ← format5 .add (it 0) g0 (-1)
  connect branch4 writeM1
  let join ← format6 .add g0 (ls (opsTop - 3)) (ls (opsTop - 1))
  connect write0 join
  connect write1 join
  let _ ← format6 .add g0 (ivs (opsTop - 2)) (ivs opsTop)
  let _ ← format6 .add (is (opsTop - 3)) (it 0) g0

/-! The graphs. -/

def laddCode (op opx : Op) (opsTop : Int) : Code Reg F where
  instrs := [.nop,
    .alu op (ivs (opsTop - 2)) (ivs (opsTop - 2)) (.reg (ivs opsTop)),
    .alu opx (ls (opsTop - 3)) (ls (opsTop - 3)) (.reg (ls (opsTop - 1)))]
  succs := [[1], [2], []]

def lmulCode (opsTop : Int) : Code Reg F where
  instrs := [.nop,
    .alu .umul (it 4) (ivs (opsTop - 2)) (.reg (ivs opsTop)),
    .rdy (it 0),
    .alu .smul (it 1) (ivs (opsTop - 2)) (.reg (ls (opsTop - 1))),
    .alu .add (it 2) (it 0) (.reg (it 1)),
    .alu .smul (it 3) (ivs opsTop) (.reg (ls (opsTop - 3))),
    .alu .add (ls (opsTop - 3)) (it 2) (.reg (it 3)),
    .alu .add (ivs (opsTop - 2)) (it 4) (.reg g0)]
  succs := [[1], [2], [3], [4], [5], [6], [7], []]

def lcmpCode (opsTop : Int) : Code Reg F where
  instrs := [.nop,
    .alu .subcc g0 (ls (opsTop - 3)) (.reg (ls (opsTop - 1))),
    .branch .g,
    .branch .l,
    .alu .subcc g0 (ivs (opsTop - 2)) (.reg (ivs opsTop)),
    .branch .gu,
    .branch .cs,
    .alu .add (it 0) g0 (.imm 0),
    .alu .add (it 0) g0 (.imm 1),
    .alu .add (it 0) g0 (.imm (-1)),
    .alu .add g0 (ls (opsTop - 3)) (.reg (ls (opsTop - 1))),
    .alu .add g0 (ivs (opsTop - 2)) (.reg (ivs opsTop)),
    .alu .add (is (opsTop - 3)) (it 0) (.reg g0)]
  succs := [[1], [2], [3, 8], [4, 9], [5], [6, 8], [7, 9], [10], [10], [10], [11], [12], []]

variable (opsTop : Int)

theorem emission_ladd :
    emission (translateLadd (F := F) opsTop) = ⟨laddCode .addcc .addx opsTop, 2⟩ := by
  simp [translateLadd, laddCode, emission, format6]

theorem emission_lsub :
    emission (translateLsub (F := F) opsTop) = ⟨laddCode .subcc .subx opsTop, 2⟩ := by
  simp [translateLsub, laddCode, emission, format6]

theorem emission_lmul : emission (translateLmul (F := F) opsTop) = ⟨lmulCode opsTop, 7⟩ := by
  simp [translateLmul, lmulCode, emission, format6]

theorem emission_lcmp : emission (translateLcmp (F := F) opsTop) = ⟨lcmpCode opsTop, 12⟩ := by
  simp [translateLcmp, lcmpCode, emission, format3, format5, format6]

def longOperand (s : State Reg F) (a b : Int) : BitVec 64 :=
  pair (s.read (ls a)) (s.read (ivs b))

/-- The sequence replaces the two operands on the stack by their result. -/
def Computes (translate : Int → Emit F Unit)
    (operation : BitVec 64 → BitVec 64 → BitVec 64) : Prop :=
  ∀ environment s opsTop, ∃ s', Runs (translate opsTop) environment s s' ∧
    longOperand s' (opsTop - 3) (opsTop - 2) =
      operation (longOperand s (opsTop - 3) (opsTop - 2)) (longOperand s (opsTop - 1) opsTop) ∧
    Preserves [ls (opsTop - 3), ivs (opsTop - 2)] s s'

theorem translateLadd_computes : Computes (F := F) translateLadd (· + ·) := by
  intro environment s opsTop
  simp only [Runs, emission_ladd]
  refine ⟨_, ⟨3, rfl⟩, ?_, rfl, rfl, rfl, ?_⟩
  · simp [longOperand, add_pair, State.read_alu, ls, ivs, Op.result, Op.icc]
  · intro r other temporary
    simp only [List.mem_cons, List.not_mem_nil, or_false, not_or] at other
    simp [State.read_alu, other]

theorem translateLsub_computes : Computes (F := F) translateLsub (· - ·) := by
  intro environment s opsTop
  simp only [Runs, emission_lsub]
  refine ⟨_, ⟨3, rfl⟩, ?_, rfl, rfl, rfl, ?_⟩
  · simp [longOperand, sub_pair, State.read_alu, ls, ivs, Op.result, Op.icc]
  · intro r other temporary
    simp only [List.mem_cons, List.not_mem_nil, or_false, not_or] at other
    simp [State.read_alu, other]

theorem translateLmul_computes : Computes (F := F) translateLmul (· * ·) := by
  intro environment s opsTop
  simp only [Runs, emission_lmul]
  refine ⟨_, ⟨8, rfl⟩, ?_, rfl, rfl, rfl, ?_⟩
  · simp [longOperand, mul_pair, State.read_alu, State.read_write, ls, ivs, it, Op.result, Op.y,
      low_product, low_signedProduct]
  · intro r other temporary
    simp only [List.mem_cons, List.not_mem_nil, or_false, not_or] at other
    simp [State.read_alu, State.read_write, other, temporary]

/-- Where `LCMP` writes the result: `WRITE_1`, `WRITE_M1` or `WRITE_0`. -/
def lcmpTarget (a b : BitVec 64) : Nat :=
  if b.slt a then 8 else if a.slt b then 9 else 7

theorem lcmpTarget_pair (h l h' l' : Word) :
    lcmpTarget (pair h l) (pair h' l') =
      if h'.slt h then 8 else if h.slt h' then 9
      else if l' < l then 8 else if l < l' then 9 else 7 := by
  have same : h = h' ↔ h.toInt = h'.toInt := BitVec.toInt_inj.symm
  simp only [lcmpTarget, slt_pair, BitVec.slt_iff_toInt_lt, same, Bool.or_eq_true,
    Bool.and_eq_true, decide_eq_true_eq, eq_comm (a := h')]
  grind

theorem reaches_lcmpTarget (environment : Environment F) (s : State Reg F) :
    ∃ s', (lcmpCode opsTop).Reaches environment 0 s
        (lcmpTarget (longOperand s (opsTop - 3) (opsTop - 2)) (longOperand s (opsTop - 1) opsTop))
        s' ∧
      Preserves [] s s' := by
  set s1 := s.alu .subcc 0 (ls (opsTop - 3)) (.reg (ls (opsTop - 1)))
  set s2 := s1.alu .subcc 0 (ivs (opsTop - 2)) (.reg (ivs opsTop))
  have first : (lcmpCode opsTop).Reaches environment 0 s 2 s1 :=
    (Code.Reaches.step rfl rfl rfl).trans (.alu rfl rfl rfl rfl)
  have second : (lcmpCode opsTop).Reaches environment 4 s1 5 s2 := .alu rfl rfl rfl rfl
  have greater : (lcmpCode opsTop).Reaches environment 2 s1
      (if Cond.g.holds s1.icc then 8 else 3) s1 := .branch rfl rfl rfl
  have less : (lcmpCode opsTop).Reaches environment 3 s1
      (if Cond.l.holds s1.icc then 9 else 4) s1 := .branch rfl rfl rfl
  have above : (lcmpCode opsTop).Reaches environment 5 s2
      (if Cond.gu.holds s2.icc then 8 else 6) s2 := .branch rfl rfl rfl
  have below : (lcmpCode opsTop).Reaches environment 6 s2
      (if Cond.cs.holds s2.icc then 9 else 7) s2 := .branch rfl rfl rfl
  have high : s1.icc = Icc.sub (s.read (ls (opsTop - 3))) (s.read (ls (opsTop - 1))) false :=
    State.icc_alu _ _ _ _ _
  have low : s2.icc = Icc.sub (s.read (ivs (opsTop - 2))) (s.read (ivs opsTop)) false := by
    simp [s2, s1, Op.icc, State.read_alu]
  rw [high, Cond.holds_g] at greater
  rw [high, Cond.holds_l] at less
  rw [low, Cond.holds_gu] at above
  rw [low, Cond.holds_cs] at below
  have kept1 : Preserves [] s s1 := ⟨rfl, rfl, rfl, fun r _ _ => by simp [s1, State.read_alu]⟩
  have kept2 : Preserves [] s s2 := ⟨rfl, rfl, rfl, fun r _ _ => by simp [s2, s1, State.read_alu]⟩
  rw [longOperand, longOperand, lcmpTarget_pair]
  split
  next taken =>
    rw [if_pos taken] at greater
    exact ⟨s1, first.trans greater, kept1⟩
  next falls =>
    rw [if_neg falls] at greater
    split
    next taken =>
      rw [if_pos taken] at less
      exact ⟨s1, (first.trans greater).trans less, kept1⟩
    next falls =>
      rw [if_neg falls] at less
      have equal := (((first.trans greater).trans less).trans second).trans above
      split
      next taken =>
        rw [if_pos (by simpa using taken)] at equal
        exact ⟨s2, equal, kept2⟩
      next falls =>
        rw [if_neg (by simpa using falls)] at equal
        refine ⟨s2, ?_, kept2⟩
        simpa using equal.trans below

theorem lcmpCode_run (environment : Environment F) (s : State Reg F) {node : Nat} {value : Word}
    (write : (lcmpCode (F := F) opsTop).instrs[node]? = some (.alu .add (it 0) g0 (.imm value)))
    (next : (lcmpCode (F := F) opsTop).succ node 0 = some 10) :
    ∃ s', (lcmpCode opsTop).run environment 4 node s = some (.left 12 0 s') ∧
      s'.read (is (opsTop - 3)) = value ∧ Preserves [is (opsTop - 3)] s s' := by
  have reaches : (lcmpCode opsTop).run environment 4 node s =
      (lcmpCode opsTop).run environment 3 10 (s.alu .add (it 0) g0 (.imm value)) := by
    simp [Code.run, write, next, Instr.exec, Op.divides, Op.isLong, Op.shifts]
  rw [reaches]
  refine ⟨_, rfl, ?_, rfl, rfl, rfl, ?_⟩
  · simp [State.read_alu, is, it, Op.result]
  · intro r other temporary
    simp only [List.mem_cons, List.not_mem_nil, or_false] at other
    simp [State.read_alu, other, temporary]

/-- The result of the comparison is its sign. -/
def Compares (translate : Int → Emit F Unit) : Prop :=
  ∀ environment s opsTop, ∃ s', Runs (translate opsTop) environment s s' ∧
    (s'.read (is (opsTop - 3))).toInt =
      ((longOperand s (opsTop - 3) (opsTop - 2)).toInt -
        (longOperand s (opsTop - 1) opsTop).toInt).sign ∧
    Preserves [is (opsTop - 3)] s s'

theorem translateLcmp_compares : Compares (F := F) translateLcmp := by
  intro environment s opsTop
  simp only [Runs, emission_lcmp]
  set a := longOperand s (opsTop - 3) (opsTop - 2)
  set b := longOperand s (opsTop - 1) opsTop
  obtain ⟨s1, reaches, kept⟩ := reaches_lcmpTarget opsTop environment s
  have ends {value : Word}
      (write : (lcmpCode (F := F) opsTop).instrs[lcmpTarget a b]? =
        some (.alu .add (it 0) g0 (.imm value)))
      (next : (lcmpCode (F := F) opsTop).succ (lcmpTarget a b) 0 = some 10)
      (sign : value.toInt = (a.toInt - b.toInt).sign) :
      ∃ s', (lcmpCode opsTop).Ends environment 0 s (.left 12 0 s') ∧
        (s'.read (is (opsTop - 3))).toInt = (a.toInt - b.toInt).sign ∧
        Preserves [is (opsTop - 3)] s s' := by
    obtain ⟨s2, run, written, kept'⟩ := lcmpCode_run opsTop environment s1 write next
    exact ⟨s2, reaches.ends_iff.mpr ⟨4, run⟩, by rw [written, sign],
      (kept.mono (List.nil_subset _)).trans kept'⟩
  have target : lcmpTarget a b =
      if b.toInt < a.toInt then 8 else if a.toInt < b.toInt then 9 else 7 := by
    simp only [lcmpTarget, BitVec.slt_iff_toInt_lt]
  rcases lt_trichotomy a.toInt b.toInt with less | equal | greater
  · rw [if_neg (by omega), if_pos less] at target
    rw [target] at ends
    refine ends rfl rfl ?_
    rw [Int.sign_eq_neg_one_of_neg (by omega)]
    rfl
  · rw [if_neg (by omega), if_neg (by omega)] at target
    rw [target] at ends
    refine ends rfl rfl ?_
    rw [equal, Int.sub_self]
    rfl
  · rw [if_pos greater] at target
    rw [target] at ends
    refine ends rfl rfl ?_
    rw [Int.sign_eq_one_of_pos (by omega)]
    rfl

theorem longSequences_exact :
    Computes (F := F) translateLadd (· + ·) ∧ Computes (F := F) translateLsub (· - ·) ∧
      Computes (F := F) translateLmul (· * ·) ∧ Compares (F := F) translateLcmp :=
  ⟨translateLadd_computes, translateLsub_computes, translateLmul_computes, translateLcmp_compares⟩

end LaTTe.Sequences
