import LaTTe.Sequences.ConstantPropagation

namespace LaTTe.Sequences

open LaTTe.Sparc
open Reg

variable {F : Type}

/-! Quotient and remainder of words. -/

def translateIdiv (opsTop : Int) : List (InstrNode F) :=
  [⟨.alu .sra (it 0) (is (opsTop - 1)) (.imm 31), .none⟩,
    ⟨.wry g0 (.reg (it 0)), ⟨0, it 0, 0⟩⟩,
    ⟨.alu .sdiv (is (opsTop - 1)) (is (opsTop - 1)) (.reg (is opsTop)),
      ⟨is (opsTop - 1), is opsTop, 0⟩⟩]

def translateIrem (opsTop : Int) : List (InstrNode F) :=
  [⟨.alu .sra (it 0) (is (opsTop - 1)) (.imm 31), .none⟩,
    ⟨.wry g0 (.reg (it 0)), ⟨0, it 0, 0⟩⟩,
    ⟨.alu .sdiv (it 1) (is (opsTop - 1)) (.reg (is opsTop)), .none⟩,
    ⟨.alu .smul (it 2) (it 1) (.reg (is opsTop)), ⟨it 1, is opsTop, 0⟩⟩,
    ⟨.alu .sub (is (opsTop - 1)) (is (opsTop - 1)) (.reg (it 2)),
      ⟨is (opsTop - 1), it 2, 0⟩⟩]

/-- `constant_propagation` on one instruction after the other behind `predecessor`; `known i` are
the constants in front of the `i`-th. -/
def propagateLine (known : Nat → Reg → Option Word) (predecessor : Instr Reg F) :
    List (InstrNode F) → List (Instr Reg F)
  | [] => [predecessor]
  | node :: line =>
      let propagated := constantPropagation (known 0) predecessor node
      propagated.predecessor :: propagated.inserted.map (·.instr) ++
        propagateLine (fun i => known (i + 1)) propagated.node.instr line

def propagated (known : Nat → Reg → Option Word) (line : List (InstrNode F)) :
    List (Instr Reg F) :=
  propagateLine known .nop line

def ConstantsRight (environment : Environment F) (known : Nat → Reg → Option Word)
    (line : List (InstrNode F)) (s : State Reg F) : Prop :=
  ∀ i s', i < line.length →
    runLine environment (propagated known (line.take i)) s = some s' → Known (known i) s'

def javaQuotient (a b : Word) : Word := BitVec.ofInt 32 (a.toInt.tdiv b.toInt)

def javaRemainder (a b : Word) : Word := BitVec.ofInt 32 (a.toInt.tmod b.toInt)

def Leaves (environment : Environment F) (known : Nat → Reg → Option Word)
    (line : List (InstrNode F)) (s : State Reg F) (reg : Reg) (value : Word) : Prop :=
  ∃ s', runLine environment (propagated known line) s = some s' ∧ s'.read reg = value

variable {environment : Environment F} {known : Reg → Option Word}

theorem keepsValue_constantPropagation {predecessor : Instr Reg F} {node : InstrNode F}
    (dividend : DividesVariable node.instr) (fits : ∀ value, CountFits known value node.instr) :
    KeepsValue known predecessor node.instr (constantPropagation known predecessor node) := by
  cases found : constantOperand known node.instr with
  | none =>
      have rewritten : constantPropagation known predecessor node = ⟨predecessor, [], node⟩ := by
        simp only [constantPropagation, found]
      rw [rewritten]
      refine keepsValue_of_replaces rfl fun environment s _ _ => ?_
      exact rel_immediate rfl _
  | some constant =>
      obtain ⟨org, value⟩ := constant
      obtain ⟨operand, nonzero, immediate⟩ := constantOperand_eq found
      have rewritten : constantPropagation known predecessor node =
          propagateConstant predecessor org value node := by
        simp only [constantPropagation, found]
      rw [rewritten]
      exact keepsValue_propagateConstant operand nonzero immediate dividend (fits value)

theorem propagateLine_concat (known : Nat → Reg → Option Word) (predecessor : Instr Reg F)
    (line : List (InstrNode F)) :
    ∃ front last, propagateLine known predecessor line = front ++ [last] ∧
      ∀ node, propagateLine known predecessor (line ++ [node]) =
        let propagated := constantPropagation (known line.length) last node
        front ++ propagated.predecessor :: propagated.nodes.map (·.instr) := by
  induction line generalizing known predecessor with
  | nil =>
      refine ⟨[], predecessor, rfl, fun node => ?_⟩
      simp [propagateLine, Propagated.nodes]
  | cons first line ih =>
      let propagated := constantPropagation (known 0) predecessor first
      obtain ⟨front, last, same, concat⟩ := ih (fun i => known (i + 1)) propagated.node.instr
      refine ⟨propagated.predecessor :: propagated.inserted.map (·.instr) ++ front, last, ?_,
        fun node => ?_⟩
      · simp [propagateLine, propagated, same]
      · simp [propagateLine, propagated, concat, List.length_cons]

theorem exists_of_rel {α β : Type*} {r : α → β → Prop} {a : α} {o : Option β}
    (related : Option.Rel r (some a) o) : ∃ b, o = some b ∧ r a b := by
  cases related with
  | some holds => exact ⟨_, rfl, holds⟩

theorem runLine_concat {known : Nat → Reg → Option Word} {line : List (InstrNode F)}
    (node : InstrNode F) {s s' s'' : State Reg F}
    (run : runLine environment (propagated known line) s = some s')
    (knows : Known (known line.length) s') (signs : SignInY node.instr s')
    (dividend : DividesVariable node.instr)
    (fits : ∀ value, CountFits (known line.length) value node.instr)
    (result : runLine environment [node.instr] s' = some s'') :
    ∃ t, runLine environment (propagated known (line ++ [node])) s = some t ∧
      SameResult (destReg node.instr) s'' t := by
  obtain ⟨front, last, same, concat⟩ := propagateLine_concat known .nop line
  rw [propagated, same, runLine_append] at run
  obtain ⟨u, before, run⟩ := Option.bind_eq_some_iff.mp run
  have rewritten : KeepsValue (known line.length) last node.instr _ :=
    keepsValue_constantPropagation dividend fits
  have keeps := rewritten environment u s' run knows signs
  rw [result] at keeps
  rw [propagated, concat, runLine_append, before, Option.bind_some]
  exact exists_of_rel keeps

section Sequences

variable {knowns : Nat → Reg → Option Word} {s : State Reg F} {opsTop : Int}

def signed (opsTop : Int) (s : State Reg F) : State Reg F :=
  let s' := s.alu .sra (it 0) (is (opsTop - 1)) (.imm 31)
  { s' with y := s'.read g0 ^^^ s'.read (it 0) }

theorem read_signed {r : Reg} (other : r ≠ it 0) : (signed opsTop s).read r = s.read r := by
  have same : (signed opsTop s).read r =
      (s.alu .sra (it 0) (is (opsTop - 1)) (.imm 31)).read r := rfl
  rw [same, State.read_alu, if_neg fun written => other written.1]

theorem y_signed : (signed opsTop s).y = sign (s.read (is (opsTop - 1))) := by
  have nonzero : it 0 ≠ 0 := var_ne_zero _ _ _
  have written : (s.alu .sra (it 0) (is (opsTop - 1)) (.imm 31)).read (it 0) =
      (s.read (is (opsTop - 1))).sshiftRight 31 := by
    rw [State.read_alu, if_pos ⟨rfl, nonzero⟩]
    rfl
  have zero : (s.alu .sra (it 0) (is (opsTop - 1)) (.imm 31)).read g0 = 0 := State.read_zero _
  rw [signed, sign, written, zero]
  exact BitVec.zero_xor

theorem runLine_signed (known : Nat → Reg → Option Word) :
    runLine environment (propagated known ((translateIdiv opsTop).take 2)) s =
      some (signed opsTop s) := rfl

theorem runLine_sdiv_signed (environment : Environment F) {dest : Reg} (nonzero : dest ≠ 0)
    (divisor : s.read (is opsTop) ≠ 0) :
    ∃ t, runLine environment
        [.alu .sdiv dest (is (opsTop - 1)) (.reg (is opsTop))] (signed opsTop s) = some t ∧
      t.read dest = sdivide (sign (s.read (is (opsTop - 1)))) (s.read (is (opsTop - 1)))
        (s.read (is opsTop)) ∧
      ∀ r, r ≠ dest → r ≠ it 0 → t.read r = s.read r := by
  have operand : (signed opsTop s).operand (.reg (is opsTop)) = s.read (is opsTop) :=
    read_signed (by simp [is, it])
  rw [runLine_sdiv, operand, if_neg divisor]
  refine ⟨_, rfl, ?_, fun r other unsigned => ?_⟩
  · rw [State.read_alu, if_pos ⟨rfl, nonzero⟩, operand, read_signed (by simp [is, it])]
    rw [Op.result, y_signed]
  · rw [State.read_alu, if_neg fun written => other written.1, read_signed unsigned]

theorem signInY_signed (dest : Reg) :
    SignInY (.alu .sdiv dest (is (opsTop - 1)) (.reg (is opsTop))) (signed opsTop s) := by
  intro destReg srcReg operand division
  cases division
  rw [y_signed, read_signed (by simp [is, it])]

theorem dividesVariable_operand (dest : Reg) :
    DividesVariable (F := F) (.alu .sdiv dest (is (opsTop - 1)) (.reg (is opsTop))) := by
  intro destReg srcReg operand division
  cases division
  simp [is, g1]

theorem runLine_quotient {dest : Reg} (lastUsedRegs : LastUsedRegs) (nonzero : dest ≠ 0)
    (divisor : s.read (is opsTop) ≠ 0) (knows : Known (knowns 2) (signed opsTop s)) :
    ∃ t, runLine environment (propagated knowns ((translateIdiv opsTop).take 2 ++
        [⟨.alu .sdiv dest (is (opsTop - 1)) (.reg (is opsTop)), lastUsedRegs⟩])) s = some t ∧
      t.read dest = sdivide (sign (s.read (is (opsTop - 1)))) (s.read (is (opsTop - 1)))
        (s.read (is opsTop)) ∧
      ∀ r, r ≠ dest → r ≠ it 0 → r ≠ g1 → t.read r = s.read r := by
  obtain ⟨t', divided, quotient, kept⟩ := runLine_sdiv_signed environment nonzero divisor
  obtain ⟨t, run, same⟩ := runLine_concat
    ⟨.alu .sdiv dest (is (opsTop - 1)) (.reg (is opsTop)), lastUsedRegs⟩
    (runLine_signed knowns) knows (signInY_signed dest) (dividesVariable_operand dest)
    (fun _ shifts => nomatch shifts) divided
  refine ⟨t, run, by rw [same.dest dest rfl, quotient], fun r other unsigned unscratched => ?_⟩
  rw [same.read r unscratched, kept r other unsigned]

theorem idiv_quotient (divisor : s.read (is opsTop) ≠ 0)
    (knows : ConstantsRight environment knowns (translateIdiv opsTop) s) :
    Leaves environment knowns (translateIdiv opsTop) s (is (opsTop - 1))
      (sdivide (sign (s.read (is (opsTop - 1)))) (s.read (is (opsTop - 1)))
        (s.read (is opsTop))) := by
  have knows := knows 2 (signed opsTop s) (by simp [translateIdiv]) (runLine_signed knowns)
  obtain ⟨t, run, quotient, -⟩ := runLine_quotient _ (var_ne_zero _ _ _) divisor knows
  exact ⟨t, run, quotient⟩

theorem runLine_concat_alu {line : List (InstrNode F)} {op : Op} {dest src operand : Reg}
    {lastUsedRegs : LastUsedRegs} {s' : State Reg F} (plain : op.divides = false)
    (unshifted : op.shifts = false) (nonzero : dest ≠ 0)
    (run : runLine environment (propagated knowns line) s = some s')
    (knows : Known (knowns line.length) s') :
    ∃ t, runLine environment (propagated knowns
        (line ++ [⟨.alu op dest src (.reg operand), lastUsedRegs⟩])) s = some t ∧
      t.read dest = op.result (s'.read src) (s'.read operand) s'.icc.carry s'.y ∧
      ∀ r, r ≠ dest → r ≠ g1 → t.read r = s'.read r := by
  have undivided : op ≠ .sdiv := by
    rintro rfl
    contradiction
  obtain ⟨t, run, same⟩ := runLine_concat ⟨.alu op dest src (.reg operand), lastUsedRegs⟩ run knows
    (fun _ _ _ division => by cases division; contradiction)
    (fun _ _ _ division => by cases division; contradiction)
    (fun _ shifts => absurd shifts (by simp [unshifted]))
    (runLine_alu environment s' plain rfl dest src [])
  refine ⟨t, run, ?_, fun r other unscratched => ?_⟩
  · rw [same.dest dest rfl, State.read_alu, if_pos ⟨rfl, nonzero⟩]
    rfl
  · rw [same.read r unscratched, State.read_alu, if_neg fun written => other written.1]

theorem irem_remainder (divisor : s.read (is opsTop) ≠ 0)
    (knows : ConstantsRight environment knowns (translateIrem opsTop) s) :
    Leaves environment knowns (translateIrem opsTop) s (is (opsTop - 1))
      (s.read (is (opsTop - 1)) -
        sdivide (sign (s.read (is (opsTop - 1)))) (s.read (is (opsTop - 1)))
          (s.read (is opsTop)) * s.read (is opsTop)) := by
  have length : (translateIrem (F := F) opsTop).length = 5 := rfl
  obtain ⟨t, run, quotient, kept⟩ := runLine_quotient .none
    (var_ne_zero .int .temp 1) divisor (knows 2 (signed opsTop s) (by omega) (runLine_signed knowns))
  obtain ⟨t1, run1, product, kept1⟩ := runLine_concat_alu (rfl : Op.smul.divides = false) rfl
    (var_ne_zero .int .temp 2) run (knows 3 t (by omega) run)
  obtain ⟨t2, run2, remainder, -⟩ := runLine_concat_alu (rfl : Op.sub.divides = false) rfl
    (var_ne_zero .int .stack (opsTop - 1)) run1 (knows 4 t1 (by omega) run1)
  have divisor1 : t.read (is opsTop) = s.read (is opsTop) :=
    kept _ (by simp [is]) (by simp [is, it]) (by simp [is, g1])
  have dividend1 : t1.read (is (opsTop - 1)) = s.read (is (opsTop - 1)) := by
    rw [kept1 _ (by simp [is]) (by simp [is, g1]),
      kept _ (by simp [is]) (by simp [is, it]) (by simp [is, g1])]
  refine ⟨t2, run2, remainder.trans ?_⟩
  have value : t1.read (it 2) = t.read (it 1) * t.read (is opsTop) :=
    product.trans (low_signedProduct _ _)
  rw [Op.result, dividend1, value, divisor1]
  congr 2

end Sequences

theorem leaves_iff {environment : Environment F} {known : Nat → Reg → Option Word}
    {line : List (InstrNode F)} {s : State Reg F} {reg : Reg} {value value' : Word}
    (leaves : Leaves environment known line s reg value) :
    Leaves environment known line s reg value' ↔ value = value' := by
  obtain ⟨t, run, read⟩ := leaves
  constructor
  · rintro ⟨t', run', read'⟩
    rw [run] at run'
    cases run'
    exact read.symm.trans read'
  · rintro rfl
    exact ⟨t, run, read⟩

theorem sdivide_sign_eq_javaQuotient (a b : Word) :
    sdivide (sign a) a b = javaQuotient a b ↔ ¬ (a = BitVec.intMin 32 ∧ b = -1) := by
  rw [javaQuotient, ofInt_tdiv]
  constructor
  · rintro same ⟨rfl, rfl⟩
    rw [sdivide_sign_intMin] at same
    revert same
    decide
  · exact fun fits => sdivide_sign_eq_sdiv (not_and_or.mp fits)

theorem sub_sdivide_sign_eq_javaRemainder (a b : Word) :
    a - sdivide (sign a) a b * b = javaRemainder a b ↔ ¬ (a = BitVec.intMin 32 ∧ b = -1) := by
  rw [javaRemainder, ofInt_tmod]
  constructor
  · rintro same ⟨rfl, rfl⟩
    rw [sdivide_sign_intMin] at same
    revert same
    decide
  · intro fits
    rw [sdivide_sign_eq_sdiv (not_and_or.mp fits)]

/-- The code for `idiv` and `irem`, with or without constants, is right but for the quotient that
does not fit. -/
theorem division_exact (environment : Environment F) (s : State Reg F) (opsTop : Int)
    (known known' : Nat → Reg → Option Word) (divisor : s.read (is opsTop) ≠ 0)
    (right : ConstantsRight environment known (translateIdiv opsTop) s)
    (right' : ConstantsRight environment known' (translateIrem opsTop) s) :
    let a := s.read (is (opsTop - 1))
    let b := s.read (is opsTop)
    (Leaves environment known (translateIdiv opsTop) s (is (opsTop - 1)) (javaQuotient a b) ↔
        ¬ (a = BitVec.intMin 32 ∧ b = -1)) ∧
      (Leaves environment known' (translateIrem opsTop) s (is (opsTop - 1)) (javaRemainder a b) ↔
        ¬ (a = BitVec.intMin 32 ∧ b = -1)) := by
  intro a b
  constructor
  · rw [leaves_iff (idiv_quotient divisor right)]
    exact sdivide_sign_eq_javaQuotient a b
  · rw [leaves_iff (irem_remainder divisor right')]
    exact sub_sdivide_sign_eq_javaRemainder a b

def atDivision (opsTop : Int) (value : Word) (i : Nat) (r : Reg) : Option Word :=
  if i = 2 ∧ r = is opsTop then some value else none

theorem constantsRight_atDivision (environment : Environment F) {s : State Reg F} {opsTop : Int}
    {value : Word} {line : List (InstrNode F)} (divisor : s.read (is opsTop) = value)
    (front : line.take 2 = (translateIdiv opsTop).take 2) :
    ConstantsRight environment (atDivision opsTop value) line s := by
  intro i s' _ run r value' _ found
  obtain ⟨⟨rfl, rfl⟩, same⟩ := Option.ite_none_right_eq_some.mp found
  cases same
  rw [front, runLine_signed] at run
  cases run
  rw [read_signed (by simp [is, it]), divisor]

def operands (a b : Word) : State Reg Unit where
  regs r := if r = is 0 then a else if r = is 1 then b else 0
  doubles _ := 0
  y := 0
  icc := ⟨false, false, false, false⟩
  mem _ := 0
  calls := []

def quiet : Environment Unit := fun _ mem => ⟨0, ⟨false, false, false, false⟩, mem, 0⟩

/-- `-7 / 2`, with and without the constant. -/
theorem division_exact_half :
    Leaves quiet (atDivision 1 2) (translateIdiv 1) (operands (-7) 2) (is 0) (-3) ∧
      Leaves quiet (fun _ _ => none) (translateIrem 1) (operands (-7) 2) (is 0) (-1) := by
  have right : ConstantsRight quiet (atDivision 1 2) (translateIdiv 1) (operands (-7) 2) :=
    constantsRight_atDivision quiet rfl rfl
  have right' : ConstantsRight quiet (fun _ _ => none) (translateIrem 1) (operands (-7) 2) :=
    fun _ _ _ _ _ _ _ found => nomatch found
  have exact := division_exact quiet (operands (-7) 2) 1 _ _ (by decide) right right'
  exact ⟨exact.1.mpr (by decide), exact.2.mpr (by decide)⟩

/-- The quotient that does not fit is `Integer.MAX_VALUE`, and the remainder `-1`. -/
theorem division_saturates :
    ¬ Leaves quiet (fun _ _ => none) (translateIdiv 1) (operands (BitVec.intMin 32) (-1)) (is 0)
        (javaQuotient (BitVec.intMin 32) (-1)) ∧
      ¬ Leaves quiet (fun _ _ => none) (translateIrem 1) (operands (BitVec.intMin 32) (-1)) (is 0)
        (javaRemainder (BitVec.intMin 32) (-1)) := by
  constructor
  · rintro ⟨t, run, read⟩
    cases run
    revert read
    decide
  · rintro ⟨t, run, read⟩
    cases run
    revert read
    decide

end LaTTe.Sequences
