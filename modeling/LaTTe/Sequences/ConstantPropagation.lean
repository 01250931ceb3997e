import LaTTe.Sequences.Emit
import LaTTe.Sparc.Division
import LaTTe.Sparc.Shifts

namespace LaTTe.Sequences

open LaTTe.Sparc

variable {F : Type}

/-! Operands that are known constants become immediate. -/

structure LastUsedRegs where
  first : Reg
  second : Reg
  third : Reg
  deriving DecidableEq, Repr

namespace LastUsedRegs

def none : LastUsedRegs := ⟨0, 0, 0⟩

def marks (lastUsedRegs : LastUsedRegs) : List Reg :=
  [lastUsedRegs.first, lastUsedRegs.second, lastUsedRegs.third].filter (· ≠ 0)

end LastUsedRegs

structure InstrNode (F : Type) where
  instr : Instr Reg F
  lastUsedRegs : LastUsedRegs
  deriving DecidableEq, Repr

/-- What `constant_propagation` leaves: the instruction, what it inserts in front, in order,
and the predecessor. -/
structure Propagated (F : Type) where
  predecessor : Instr Reg F
  inserted : List (InstrNode F)
  node : InstrNode F

def Propagated.nodes (propagated : Propagated F) : List (InstrNode F) :=
  propagated.inserted ++ [propagated.node]

def g1 : Reg := .hard 1

/-- `is_alu_op`, `SUBCC` and `ADDCC`. -/
def canChangeRegToImm : Op → Bool
  | .add | .sub | .or | .and | .smul | .umul | .sdiv | .udiv | .sll | .sra | .srl | .xor | .xnor
  | .subcc | .addcc => true
  | _ => false

def immediate (known : Reg → Option Word) (reg : Reg) : Option Word :=
  (known reg).filter fun value => value.toInt < 1 <<< 12 ∧ -(1 <<< 12) < value.toInt

/-- `add orgReg, g0, g0` stands where `orgReg` is used last. -/
def lastUse (orgReg : Reg) : InstrNode F :=
  ⟨.alu .add g0 orgReg (.reg g0), ⟨orgReg, 0, 0⟩⟩

def orgMarker (lastUsedRegs : LastUsedRegs) (orgReg : Reg) : List (InstrNode F) :=
  if lastUsedRegs.second = orgReg then [lastUse orgReg] else []

def powerOfTwo (value : Word) : Option Nat :=
  (List.range' 1 12).find? fun i => value = BitVec.ofNat 32 (2 ^ i)

def withImmediate (predecessor : Instr Reg F) (inserted : List (InstrNode F)) (instr : Instr Reg F)
    (lastUsedRegs : LastUsedRegs) (orgReg : Reg) : Propagated F where
  predecessor := predecessor
  inserted := inserted ++ orgMarker lastUsedRegs orgReg
  node := ⟨instr, { lastUsedRegs with second := 0 }⟩

def propagateSmul (predecessor : Instr Reg F) (destReg srcReg orgReg : Reg) (value : Word)
    (lastUsedRegs : LastUsedRegs) : Propagated F :=
  if value = 0 then
    let inserted := if lastUsedRegs.first = srcReg then [lastUse orgReg] else []
    withImmediate predecessor inserted (.sethi destReg 0)
      { lastUsedRegs with first := 0, second := 0 } orgReg
  else if value = 1 then
    withImmediate predecessor [] (.alu .add destReg srcReg (.imm 0)) lastUsedRegs orgReg
  else
    match powerOfTwo value with
    | some i =>
        withImmediate predecessor [] (.alu .sll destReg srcReg (.imm (BitVec.ofNat 32 i)))
          lastUsedRegs orgReg
    | none =>
        withImmediate predecessor [] (.alu .smul destReg srcReg (.imm value)) lastUsedRegs orgReg

/-- `y` is not written for a division that has become something else. -/
def withoutWry : Instr Reg F → Instr Reg F
  | .wry srcReg operand => .alu .add g0 srcReg operand
  | instr => instr

def propagateSdiv (predecessor : Instr Reg F) (destReg srcReg orgReg : Reg) (value : Word)
    (lastUsedRegs : LastUsedRegs) : Propagated F :=
  if value = 1 then
    withImmediate (withoutWry predecessor) [] (.alu .add destReg srcReg (.imm 0)) lastUsedRegs
      orgReg
  else if value = 2 then
    let used := lastUsedRegs.first = srcReg
    let marker := if used then [⟨.alu .add g0 srcReg (.reg g0), .none⟩] else []
    withImmediate (withoutWry predecessor)
      (marker ++ [⟨.alu .srl g1 srcReg (.imm 0x1f), .none⟩,
        ⟨.alu .add g1 srcReg (.reg g1), .none⟩])
      (.alu .sra destReg g1 (.imm 1))
      (if used then { lastUsedRegs with first := 0 } else lastUsedRegs) orgReg
  else
    withImmediate predecessor [] (.alu .sdiv destReg srcReg (.imm value)) lastUsedRegs orgReg

def propagateConstant (predecessor : Instr Reg F) (orgReg : Reg) (value : Word)
    (node : InstrNode F) : Propagated F :=
  match node.instr with
  | .alu .smul destReg srcReg _ =>
      propagateSmul predecessor destReg srcReg orgReg value node.lastUsedRegs
  | .alu .sdiv destReg srcReg _ =>
      propagateSdiv predecessor destReg srcReg orgReg value node.lastUsedRegs
  | .alu op destReg srcReg _ =>
      withImmediate predecessor [] (.alu op destReg srcReg (.imm value)) node.lastUsedRegs orgReg
  | .load width destReg baseReg _ =>
      withImmediate predecessor [] (.load width destReg baseReg (.imm value)) node.lastUsedRegs
        orgReg
  | .loadDouble destReg baseReg _ =>
      withImmediate predecessor [] (.loadDouble destReg baseReg (.imm value)) node.lastUsedRegs
        orgReg
  -- formats 7 and 8: the stored register moves up
  | .store width srcReg baseReg _ =>
      ⟨predecessor, orgMarker node.lastUsedRegs orgReg,
        .store width srcReg baseReg (.imm value),
        ⟨node.lastUsedRegs.first, node.lastUsedRegs.third, 0⟩⟩
  | .storeDouble srcReg baseReg _ =>
      ⟨predecessor, orgMarker node.lastUsedRegs orgReg,
        .storeDouble srcReg baseReg (.imm value),
        ⟨node.lastUsedRegs.first, node.lastUsedRegs.third, 0⟩⟩
  | _ => ⟨predecessor, [], node⟩

def orgReg (instr : Instr Reg F) : Option Reg :=
  match instr with
  | .alu op _ srcReg (.reg orgReg) =>
      -- copies stay as they are
      if (op = .add ∧ (srcReg = g0 ∨ orgReg = g0)) ∨ ¬ canChangeRegToImm op then none
      else some orgReg
  | .load _ _ _ (.reg orgReg) => some orgReg
  | .loadDouble _ _ (.reg orgReg) => some orgReg
  | .store _ _ _ (.reg orgReg) => some orgReg
  | .storeDouble _ _ (.reg orgReg) => some orgReg
  | _ => none

def constantOperand (known : Reg → Option Word) (instr : Instr Reg F) : Option (Reg × Word) := do
  let orgReg ← orgReg instr
  if orgReg = g0 then none else
  let value ← immediate known orgReg
  some (orgReg, value)

/-- `constant_propagation`; `known` are the variables whose value number is of a constant. -/
def constantPropagation (known : Reg → Option Word) (predecessor : Instr Reg F)
    (node : InstrNode F) : Propagated F :=
  match constantOperand known node.instr with
  | some (orgReg, value) => propagateConstant predecessor orgReg value node
  | none => ⟨predecessor, [], node⟩

/-! The value. -/

def Known (known : Reg → Option Word) (s : State Reg F) : Prop :=
  ∀ r value, r ≠ 0 → known r = some value → s.read r = value

/-- A division stands behind what writes the sign of its dividend to `y`. -/
def SignInY (instr : Instr Reg F) (s : State Reg F) : Prop :=
  ∀ destReg srcReg operand, instr = .alu .sdiv destReg srcReg operand →
    s.y = sign (s.read srcReg)

def destReg : Instr Reg F → Option Reg
  | .alu _ destReg _ _ => some destReg
  | .load _ destReg _ _ => some destReg
  | _ => none

/-- The destination and everything but `y` and the scratch register `g1` is the same. -/
structure SameResult (destReg : Option Reg) (s' s'' : State Reg F) : Prop where
  mem : s''.mem = s'.mem
  calls : s''.calls = s'.calls
  icc : s''.icc = s'.icc
  doubles : s''.doubles = s'.doubles
  dest : ∀ r, destReg = some r → s''.read r = s'.read r
  read : ∀ r, r ≠ g1 → s''.read r = s'.read r

theorem SameResult.refl (destReg : Option Reg) (s : State Reg F) : SameResult destReg s s :=
  ⟨rfl, rfl, rfl, rfl, fun _ _ => rfl, fun _ _ => rfl⟩

/-- The nodes do what the instruction does, or trap where it does. -/
def Replaces (known : Reg → Option Word) (instr : Instr Reg F) (nodes : List (InstrNode F)) :
    Prop :=
  ∀ environment s, Known known s → SignInY instr s →
    Option.Rel (SameResult (destReg instr)) (runLine environment [instr] s)
      (runLine environment (nodes.map (·.instr)) s)

/-- The rewritten code does behind its predecessor what the instruction does behind its own. -/
def KeepsValue (known : Reg → Option Word) (predecessor instr : Instr Reg F)
    (propagated : Propagated F) : Prop :=
  ∀ environment s s', runLine environment [predecessor] s = some s' → Known known s' →
    SignInY instr s' →
    Option.Rel (SameResult (destReg instr)) (runLine environment [instr] s')
      (runLine environment (propagated.predecessor :: propagated.nodes.map (·.instr)) s)

variable (environment : Environment F) (s : State Reg F)

theorem alu_g0 (srcReg : Reg) (operand : Operand Reg) : s.alu .add g0 srcReg operand = s :=
  State.write_zero _ _

theorem runLine_copy (srcReg : Reg) (operand : Operand Reg) (instrs : List (Instr Reg F)) :
    runLine environment (.alu .add g0 srcReg operand :: instrs) s = runLine environment instrs s := by
  have short : Op.add.isLong operand = false := isLong_of_not_shifts rfl operand
  simp [runLine, exec_alu environment rfl short, alu_g0]

theorem runLine_orgMarker (lastUsedRegs : LastUsedRegs) (orgReg : Reg)
    (instrs : List (Instr Reg F)) :
    runLine environment ((orgMarker lastUsedRegs orgReg).map (·.instr) ++ instrs) s =
      runLine environment instrs s := by
  unfold orgMarker
  split
  · exact runLine_copy environment s orgReg (.reg g0) instrs
  · rfl

variable {environment s} {known : Reg → Option Word}

theorem rel_immediate {instr instr' : Instr Reg F}
    (same : instr'.exec environment s = instr.exec environment s) (destReg : Option Reg) :
    Option.Rel (SameResult destReg) (runLine environment [instr] s)
      (runLine environment [instr'] s) := by
  have equal : runLine environment [instr'] s = runLine environment [instr] s := by
    simp only [runLine, same]
  rw [equal]
  cases runLine environment [instr] s with
  | none => exact .none
  | some s' => exact .some (.refl destReg s')

theorem keepsValue_of_replaces {predecessor instr : Instr Reg F} {propagated : Propagated F}
    (same : propagated.predecessor = predecessor)
    (replaces : Replaces known instr propagated.nodes) :
    KeepsValue known predecessor instr propagated := by
  intro environment s s' before knows signs
  rw [same, runLine_cons before]
  exact replaces environment s' knows signs

theorem runLine_withoutWry {predecessor : Instr Reg F} {s' : State Reg F}
    (before : runLine environment [predecessor] s = some s') :
    ∃ y, runLine environment [withoutWry predecessor] s = some { s' with y := y } := by
  cases predecessor with
  | wry srcReg operand =>
      obtain rfl : { s with y := s.read srcReg ^^^ s.operand operand } = s' :=
        Option.some.inj before
      exact ⟨s.y, runLine_copy environment s srcReg operand []⟩
  | _ => exact ⟨s'.y, before⟩

theorem keepsValue_withoutWry {predecessor instr : Instr Reg F} {inserted : List (InstrNode F)}
    {node : InstrNode F}
    (keeps : ∀ environment s y, Known known s → SignInY instr s →
      Option.Rel (SameResult (destReg instr)) (runLine environment [instr] s)
        (runLine environment ((inserted ++ [node]).map (·.instr)) { s with y := y })) :
    KeepsValue known predecessor instr ⟨withoutWry predecessor, inserted, node⟩ := by
  intro environment s s' before knows signs
  obtain ⟨y, without⟩ := runLine_withoutWry before
  rw [runLine_cons without]
  exact keeps environment s' y knows signs

theorem runLine_markers {inserted : List (InstrNode F)} {lastUsedRegs : LastUsedRegs}
    {orgReg : Reg} {node : InstrNode F} :
    runLine environment
        ((inserted ++ orgMarker lastUsedRegs orgReg ++ [node]).map InstrNode.instr) s =
      runLine environment (inserted.map (·.instr) ++ [node.instr]) s := by
  have markers : runLine environment
      ((orgMarker lastUsedRegs orgReg).map (·.instr) ++ [node.instr]) =
        runLine environment [node.instr] := by
    funext t
    exact runLine_orgMarker environment t lastUsedRegs orgReg [node.instr]
  simp only [List.map_append, List.map_cons, List.map_nil, List.append_assoc]
  rw [runLine_append, runLine_append, markers]

theorem replaces_markers {instr instr' : Instr Reg F} {lastUsedRegs lastUsedRegs' : LastUsedRegs}
    {orgReg : Reg} {inserted : List (InstrNode F)}
    (keeps : ∀ environment s, Known known s → SignInY instr s →
      Option.Rel (SameResult (destReg instr)) (runLine environment [instr] s)
        (runLine environment (inserted.map (·.instr) ++ [instr']) s)) :
    Replaces known instr
      (inserted ++ orgMarker lastUsedRegs orgReg ++ [⟨instr', lastUsedRegs'⟩]) := by
  intro environment s knows signs
  rw [runLine_markers]
  exact keeps environment s knows signs

theorem replaces_immediate {instr instr' : Instr Reg F} {lastUsedRegs lastUsedRegs' : LastUsedRegs}
    {orgReg : Reg}
    (same : ∀ (environment : Environment F) s, Known known s →
      instr'.exec environment s = instr.exec environment s) :
    Replaces known instr (orgMarker lastUsedRegs orgReg ++ [⟨instr', lastUsedRegs'⟩]) :=
  @replaces_markers _ _ _ _ _ _ _ [] fun environment s knows _ =>
    rel_immediate (same environment s knows) _

theorem sameResult_alu {s t : State Reg F} {op op' : Op} {dest src src' : Reg}
    {operand operand' : Operand Reg} (agree : SameResult none s t)
    (icc : op'.icc (t.read src') (t.operand operand') t.icc =
      op.icc (s.read src) (s.operand operand) s.icc)
    (result : op'.result (t.read src') (t.operand operand') t.icc.carry t.y =
      op.result (s.read src) (s.operand operand) s.icc.carry s.y) :
    SameResult (some dest) (s.alu op dest src operand) (t.alu op' dest src' operand') where
  mem := by simpa using agree.mem
  calls := by simpa using agree.calls
  icc := by simpa using icc
  doubles := by simpa using agree.doubles
  dest r same := by
    cases same
    rw [State.read_alu, State.read_alu, result]
    split
    · rfl
    next unwritten =>
      have zero : dest = 0 := by
        by_contra nonzero
        exact unwritten ⟨rfl, nonzero⟩
      rw [zero, State.read_zero, State.read_zero]
  read r other := by
    rw [State.read_alu, State.read_alu, result, agree.read r other]

theorem replaces_alu {predecessor : Instr Reg F} {op op' : Op} {dest src orgReg : Reg}
    {value : Word} {operand : Operand Reg} {lastUsedRegs : LastUsedRegs}
    (known_org : known orgReg = some value) (nonzero : orgReg ≠ 0) (plain : op.divides = false)
    (plain' : op'.divides = false) (short' : op'.isLong operand = false)
    (icc : ∀ a operand icc, op'.icc a operand icc = op.icc a value icc)
    (result : ∀ (s : State Reg F), op'.result (s.read src) (s.operand operand) s.icc.carry s.y =
      op.result (s.read src) value s.icc.carry s.y) :
    Replaces known (.alu op dest src (.reg orgReg))
      (withImmediate predecessor [] (.alu op' dest src operand) lastUsedRegs orgReg).nodes := by
  refine replaces_markers fun environment s knows signs => ?_
  have org : s.operand (.reg orgReg) = value := knows orgReg value nonzero known_org
  rw [List.map_nil, List.nil_append, runLine_alu environment s plain rfl,
    runLine_alu environment s plain' short']
  exact .some (sameResult_alu (.refl none s) (by rw [org, icc]) (by rw [org, result]))

theorem powerOfTwo_eq {value : Word} {i : Nat} (found : powerOfTwo value = some i) :
    value = BitVec.ofNat 32 (2 ^ i) ∧ i < 32 := by
  have member := List.mem_of_find?_eq_some found
  have equal := List.find?_some found
  refine ⟨by simpa using equal, ?_⟩
  have range := List.mem_range'_1.mp member
  omega

theorem isLong_exponent {i : Nat} (small : i < 32) (op : Op) :
    op.isLong (.imm (BitVec.ofNat 32 i) : Operand Reg) = false := by
  have bit : i.testBit 12 = false := Nat.testBit_lt_two_pow (by omega)
  rw [Op.isLong, BitVec.getLsbD_ofNat, bit, Bool.and_false, Bool.and_false]

theorem shiftLeft_exponent (a : Word) {i : Nat} (small : i < 32) :
    a <<< shiftCount (BitVec.ofNat 32 i) = a * BitVec.ofNat 32 (2 ^ i) := by
  have count : shiftCount (BitVec.ofNat 32 i) = i := by
    rw [shiftCount, BitVec.toNat_ofNat]
    omega
  have power : BitVec.twoPow 32 i = BitVec.ofNat 32 (2 ^ i) :=
    BitVec.eq_of_toNat_eq (by rw [BitVec.toNat_twoPow, BitVec.toNat_ofNat])
  rw [count, BitVec.shiftLeft_eq_mul_twoPow, power]

section Cases

variable {predecessor : Instr Reg F} {dest src orgReg : Reg} {value : Word}
variable {lastUsedRegs : LastUsedRegs}

theorem replaces_smul (known_org : known orgReg = some value) (nonzero : orgReg ≠ 0) :
    Replaces known (.alu .smul dest src (.reg orgReg))
      (propagateSmul predecessor dest src orgReg value lastUsedRegs).nodes := by
  unfold propagateSmul
  split
  next zero =>
    refine replaces_markers fun environment s knows signs => ?_
    have org : s.operand (.reg orgReg) = 0 := zero ▸ knows orgReg value nonzero known_org
    have product : Op.smul.result (s.read src) 0 s.icc.carry s.y = 0 := by
      simp [Op.result, low_signedProduct]
    have inserted : runLine environment
        ((if lastUsedRegs.first = src then [lastUse orgReg] else []).map (·.instr) ++
          [.sethi dest 0]) s = some (s.write dest 0) := by
      split
      · exact runLine_copy environment s orgReg (.reg g0) _
      · rfl
    rw [inserted, runLine_alu environment s rfl rfl]
    refine .some ⟨by simp, by simp, by simp [Op.icc], by simp, fun r _ => ?_, fun r _ => ?_⟩
    · rw [State.read_alu, State.read_write, org, product]
    · rw [State.read_alu, State.read_write, org, product]
  next =>
    split
    next one =>
      subst one
      refine replaces_alu known_org nonzero rfl rfl rfl (fun _ _ _ => rfl) fun s => ?_
      simp [Op.result, low_signedProduct]
    next =>
      split
      next i found =>
        obtain ⟨rfl, small⟩ := powerOfTwo_eq found
        refine replaces_alu known_org nonzero rfl rfl (isLong_exponent small .sll)
          (fun _ _ _ => rfl) fun s => ?_
        simp only [Op.result, low_signedProduct, State.operand_imm]
        exact shiftLeft_exponent _ small
      next => exact replaces_alu known_org nonzero rfl rfl rfl (fun _ _ _ => rfl) fun s => rfl

theorem predecessor_propagateSmul :
    (propagateSmul predecessor dest src orgReg value lastUsedRegs).predecessor = predecessor := by
  unfold propagateSmul
  split
  · rfl
  · split
    · rfl
    · split
      · rfl
      · rfl

theorem runLine_sdiv (s : State Reg F) (operand : Operand Reg) :
    runLine environment [.alu .sdiv dest src operand] s =
      if s.operand operand = 0 then none else some (s.alu .sdiv dest src operand) := by
  have short : Op.sdiv.isLong operand = false := isLong_of_not_shifts rfl operand
  simp only [runLine, Instr.exec, Op.divides, true_and, short, Bool.false_eq_true, if_false]
  by_cases zero : s.operand operand = 0
  · simp only [if_pos zero]
  · simp only [if_neg zero]

theorem runLine_halve (s : State Reg F) :
    runLine environment [.alu .srl g1 src (.imm 0x1f), .alu .add g1 src (.reg g1),
        .alu .sra dest g1 (.imm 1)] s =
      some (((s.alu .srl g1 src (.imm 0x1f)).alu .add g1 src (.reg g1)).alu .sra dest g1
        (.imm 1)) := by
  rw [runLine_alu environment s rfl rfl, runLine_alu environment _ rfl rfl,
    runLine_alu environment _ rfl rfl]
  rfl

theorem sameResult_copy (s : State Reg F) (y : Word) (org : s.operand (.reg orgReg) = 1)
    (signs : s.y = sign (s.read src)) :
    SameResult (some dest) (s.alu .sdiv dest src (.reg orgReg))
      (State.alu { s with y := y } .add dest src (.imm 0)) := by
  have agree : SameResult none s { s with y := y } :=
    ⟨rfl, rfl, rfl, rfl, fun _ _ => rfl, fun _ _ => rfl⟩
  refine sameResult_alu agree (by simp [Op.icc]) ?_
  have quotient : sdivide s.y (s.read src) 1 = s.read src := by
    rw [signs, sdivide_sign_eq_sdiv (.inr (by decide))]
    exact BitVec.sdiv_one
  rw [org, Op.result, Op.result, State.operand_imm, quotient]
  exact BitVec.add_zero _

theorem sameResult_halve (s : State Reg F) (y : Word) (apart : src ≠ g1)
    (org : s.operand (.reg orgReg) = 2) (signs : s.y = sign (s.read src)) :
    SameResult (some dest) (s.alu .sdiv dest src (.reg orgReg))
      (((State.alu { s with y := y } .srl g1 src (.imm 0x1f)).alu .add g1 src (.reg g1)).alu .sra
        dest g1 (.imm 1)) := by
  have scratch : g1 ≠ 0 := by decide
  set s1 : State Reg F := { s with y := y }
  have same (r : Reg) : s1.read r = s.read r := rfl
  set t := (s1.alu .srl g1 src (.imm 0x1f)).alu .add g1 src (.reg g1)
  have agree : SameResult none s t := by
    refine ⟨by simp [t, s1], by simp [t, s1], by simp [t, s1, Op.icc], by simp [t, s1],
      fun r => nofun, fun r other => ?_⟩
    simp [t, State.read_alu, other, same]
  have bias : t.read g1 = s.read src + s.read src >>> 31 := by
    simp [t, State.read_alu, scratch, apart, Op.result, shiftCount, same]
  refine sameResult_alu agree (by simp [Op.icc, agree.icc]) ?_
  simp only [Op.result, State.operand_imm, bias, org, signs]
  exact (sshiftRight_add_ushiftRight _).trans
    (sdivide_sign_eq_sdiv (.inr (by decide))).symm

theorem keepsValue_sdiv (known_org : known orgReg = some value) (nonzero : orgReg ≠ 0)
    (apart : src ≠ g1) :
    KeepsValue known predecessor (.alu .sdiv dest src (.reg orgReg))
      (propagateSdiv predecessor dest src orgReg value lastUsedRegs) := by
  unfold propagateSdiv
  split
  next one =>
    refine keepsValue_withoutWry fun environment s y knows signs => ?_
    have org : s.operand (.reg orgReg) = 1 := one ▸ knows orgReg value nonzero known_org
    rw [runLine_markers, List.map_nil, List.nil_append, runLine_sdiv, org, if_neg (by decide),
      runLine_alu environment _ rfl rfl]
    exact .some (sameResult_copy s y org (signs dest src _ rfl))
  next =>
    split
    next two =>
      refine keepsValue_withoutWry fun environment s y knows signs => ?_
      have org : s.operand (.reg orgReg) = 2 := two ▸ knows orgReg value nonzero known_org
      have halve : SameResult (some dest) _ _ :=
        sameResult_halve s y apart org (signs dest src _ rfl)
      rw [runLine_markers, runLine_sdiv, org, if_neg (by decide)]
      split
      next used =>
        simp only [List.map_cons, List.map_nil, List.cons_append, List.nil_append,
          runLine_copy environment _, runLine_halve]
        exact .some halve
      next unused =>
        simp only [List.map_cons, List.map_nil, List.cons_append, List.nil_append, runLine_halve]
        exact .some halve
    next =>
      refine keepsValue_of_replaces rfl (replaces_markers fun environment s knows signs => ?_)
      have org : s.operand (.reg orgReg) = value := knows orgReg value nonzero known_org
      rw [List.map_nil, List.nil_append]
      have same : s.operand (.imm value) = s.operand (.reg orgReg) := org.symm
      exact rel_immediate (exec_alu_congr environment same rfl rfl _ _) _

end Cases

theorem known_of_immediate {orgReg : Reg} {value : Word}
    (found : immediate known orgReg = some value) : known orgReg = some value :=
  (Option.filter_eq_some_iff.mp found).1

theorem constantOperand_eq {instr : Instr Reg F} {org : Reg} {value : Word}
    (found : constantOperand known instr = some (org, value)) :
    orgReg instr = some org ∧ org ≠ g0 ∧ immediate known org = some value := by
  unfold constantOperand at found
  cases operand : orgReg instr with
  | none => simp [operand] at found
  | some org' =>
      by_cases zero : org' = g0
      · simp [operand, zero] at found
      · cases constant : immediate known org' with
        | none => simp [operand, zero, constant] at found
        | some value' =>
            simp only [operand, zero, constant, Option.bind_eq_bind, Option.bind_some, if_false,
              Option.some.injEq, Prod.mk.injEq] at found
            obtain ⟨rfl, rfl⟩ := found
            exact ⟨rfl, zero, constant⟩

def DividesVariable (instr : Instr Reg F) : Prop :=
  ∀ destReg srcReg operand, instr = .alu .sdiv destReg srcReg operand → srcReg ≠ g1

/-- A negative count selects the shift of 64 bits; it leaves the same word where it is `0` again,
or shifts to the left, by less than a word or all of a constant away. -/
def CountFits (known : Reg → Option Word) (value : Word) : Instr Reg F → Prop
  | .alu op destReg srcReg _ =>
      op.shifts = true → value.toInt < 0 → destReg ≠ 0 → srcReg ≠ 0 →
        value.toNat % 64 = 0 ∨
          op = .sll ∧ (value.toNat % 64 < 32 ∨
            ∃ c, known srcReg = some c ∧ c <<< shiftCount value = 0)
  | _ => True

section Shifts

variable {op : Op} {dest src orgReg : Reg} {value : Word}

theorem isLong_iff (found : immediate known orgReg = some value) :
    op.isLong (.imm value : Operand Reg) = true ↔ op.shifts = true ∧ value.toInt < 0 := by
  have range : value.toInt < 4096 ∧ -4096 < value.toInt := by
    have inside := (Option.filter_eq_some_iff.mp found).2
    simpa using inside
  have bit : value.getLsbD 12 = true ↔ value.toInt < 0 := by
    rw [BitVec.getLsbD, Nat.testBit_eq_decide_div_mod_eq, decide_eq_true_eq]
    have unsigned := BitVec.toInt_eq_toNat_cond value
    have bound := value.isLt
    split at unsigned
    · omega
    · omega
  rw [Op.isLong, Bool.and_eq_true, bit]

theorem alu_shift (shifts : op.shifts = true) (s : State Reg F) (operand : Operand Reg) :
    s.alu op dest src operand =
      s.write dest (op.result (s.read src) (s.operand operand) s.icc.carry s.y) := by
  cases op with
  | sll | srl | sra => rfl
  | _ => contradiction

theorem long_eq_result (shifts : op.shifts = true)
    (fits : src ≠ 0 → value.toNat % 64 = 0 ∨
      op = .sll ∧ (value.toNat % 64 < 32 ∨
        ∃ c, known src = some c ∧ c <<< shiftCount value = 0))
    {s : State Reg F} (knows : Known known s) (upper : Word) :
    op.long (if src = 0 then 0 else upper) (s.read src) value =
      op.result (s.read src) value s.icc.carry s.y := by
  by_cases zero : src = 0
  · subst zero
    rw [if_pos rfl, State.read_zero]
    exact Op.long_of_eq_zero value shifts _ _
  · rw [if_neg zero]
    rcases fits zero with none | ⟨rfl, below⟩
    · exact Op.long_of_count_eq_zero upper _ value shifts none _ _
    · rw [Op.long_sll, Op.result]
      split
      · rfl
      next large =>
        obtain ⟨c, constant, away⟩ := below.resolve_left large
        rw [knows src c zero constant, away]

theorem exec_shift (found : immediate known orgReg = some value) (nonzero : orgReg ≠ 0)
    (shifts : op.shifts = true)
    (fits : CountFits known value (.alu op dest src (.reg orgReg) : Instr Reg F))
    {s : State Reg F} (knows : Known known s) (environment : Environment F) :
    (Instr.alu op dest src (.imm value) : Instr Reg F).exec environment s =
      (Instr.alu op dest src (.reg orgReg) : Instr Reg F).exec environment s := by
  have org : s.operand (.imm value) = s.operand (.reg orgReg) :=
    (knows orgReg value nonzero (known_of_immediate found)).symm
  have plain : op.divides = false := by
    cases op with
    | udiv | sdiv => contradiction
    | _ => rfl
  cases long : op.isLong (.imm value : Operand Reg) with
  | false => exact exec_alu_congr environment org long rfl dest src
  | true =>
      have negative := ((isLong_iff found).mp long).2
      rw [exec_shiftLong environment long, exec_alu environment plain rfl, alu_shift shifts, ← org]
      by_cases unwritten : dest = 0
      · subst unwritten
        rw [State.shiftLong, State.write_zero, State.write_zero]
      · rw [State.shiftLong, State.operand_imm,
          long_eq_result shifts (fits shifts negative unwritten) knows]

def holding (known : Reg → Option Word) : State Reg F where
  regs r := (known r).getD 1
  doubles _ := 0
  y := 0
  icc := ⟨false, false, false, false⟩
  mem _ := 0
  calls := []

def under (upper : Word) : Environment F :=
  fun _ mem => ⟨0, ⟨false, false, false, false⟩, mem, upper⟩

theorem read_holding {r : Reg} (nonzero : r ≠ 0) :
    (holding known : State Reg F).read r = (known r).getD 1 := if_neg nonzero

theorem known_holding : Known known (holding known : State Reg F) := by
  intro r value nonzero constant
  rw [read_holding nonzero, constant, Option.getD_some]

theorem exists_long_ne_holding (shifts : op.shifts = true)
    (unfit : ¬ (value.toNat % 64 = 0 ∨
      op = .sll ∧ (value.toNat % 64 < 32 ∨
        ∃ c, known src = some c ∧ c <<< shiftCount value = 0))) :
    ∃ upper, op.long upper ((known src).getD 1) value ≠
      op.result ((known src).getD 1) value false 0 := by
  obtain ⟨count, left⟩ := not_or.mp unfit
  by_cases isLeft : op = .sll
  · subst isLeft
    obtain ⟨large, seen⟩ := not_or.mp fun fits => left ⟨rfl, fits⟩
    refine ⟨0, fun same => ?_⟩
    rw [Op.long_sll, if_neg large, Op.result] at same
    cases constant : known src with
    | some c => exact seen ⟨c, constant, by simpa [constant] using same.symm⟩
    | none =>
        have bit := congrArg (BitVec.getLsbD · (shiftCount value)) same
        have inside : shiftCount value < 32 := Nat.mod_lt _ (by decide)
        simp [constant, inside] at bit
  · have right : op = .srl ∨ op = .sra := by
      cases op with
      | sll => exact absurd rfl isLeft
      | srl => exact .inl rfl
      | sra => exact .inr rfl
      | _ => contradiction
    exact Op.exists_long_ne _ value right count false 0

theorem countFits_of_keepsValue {lastUsedRegs : LastUsedRegs}
    (found : immediate known orgReg = some value) (nonzero : orgReg ≠ 0)
    (keeps : KeepsValue known .nop (.alu op dest src (.reg orgReg) : Instr Reg F)
      (withImmediate .nop [] (.alu op dest src (.imm value)) lastUsedRegs orgReg)) :
    CountFits known value (.alu op dest src (.reg orgReg) : Instr Reg F) := by
  intro shifts negative written read
  by_contra unfit
  obtain ⟨upper, differs⟩ := exists_long_ne_holding shifts unfit
  have long : op.isLong (.imm value : Operand Reg) = true := (isLong_iff found).mpr ⟨shifts, negative⟩
  have plain : op.divides = false := by
    cases op with
    | udiv | sdiv => contradiction
    | _ => rfl
  set s : State Reg F := holding known
  have unsigned : SignInY (.alu op dest src (.reg orgReg)) s := by
    rintro _ _ _ ⟨⟩
    contradiction
  have rel := keeps (under upper) s s rfl known_holding unsigned
  have org : s.operand (.reg orgReg) = value :=
    known_holding orgReg value nonzero (known_of_immediate found)
  have after : runLine (under upper) [.alu op dest src (.imm value)] s =
      some (s.shiftLong upper op dest src (.imm value)) := by
    simp [runLine, exec_shiftLong (under upper) long, under]
  rw [runLine_alu (under upper) s plain rfl, runLine_cons rfl, Propagated.nodes, withImmediate,
    runLine_markers] at rel
  change Option.Rel _ _ (runLine (under upper) [.alu op dest src (.imm value)] s) at rel
  rw [after] at rel
  obtain ⟨same⟩ := rel
  have word := same.dest dest rfl
  rw [State.shiftLong, if_neg read, alu_shift shifts, State.read_write, State.read_write,
    if_pos ⟨rfl, written⟩, if_pos ⟨rfl, written⟩, org, State.operand_imm, read_holding read] at word
  exact differs word

end Shifts

theorem keepsValue_propagateConstant {predecessor : Instr Reg F} {node : InstrNode F}
    {org : Reg} {value : Word} (operand : orgReg node.instr = some org)
    (nonzero : org ≠ 0) (found : immediate known org = some value)
    (dividend : DividesVariable node.instr) (fits : CountFits known value node.instr) :
    KeepsValue known predecessor node.instr (propagateConstant predecessor org value node) := by
  have known_org := known_of_immediate found
  obtain ⟨instr, lastUsedRegs⟩ := node
  cases instr with
  | alu op dest src operand' =>
      cases operand' with
      | imm value => simp [orgReg] at operand
      | reg org' =>
          obtain rfl : org' = org := by
            simp only [orgReg] at operand
            split at operand
            · contradiction
            · exact Option.some.inj operand
          cases op with
          | smul =>
              exact keepsValue_of_replaces (predecessor_propagateSmul ..)
                (replaces_smul known_org nonzero)
          | sdiv => exact keepsValue_sdiv known_org nonzero (dividend dest src _ rfl)
          | sll | srl | sra =>
            exact keepsValue_of_replaces rfl (replaces_immediate fun environment s knows =>
              exec_shift found nonzero rfl fits knows environment)
          | _ =>
            refine keepsValue_of_replaces rfl (replaces_immediate fun environment s knows => ?_)
            have same : s.operand (.imm value) = s.operand (.reg org') :=
              (knows org' value nonzero known_org).symm
            exact exec_alu_congr environment same rfl rfl _ _
  | load _ _ _ operand' | loadDouble _ _ operand' | store _ _ _ operand'
  | storeDouble _ _ operand' =>
      cases operand' with
      | imm value => simp [orgReg] at operand
      | reg org' =>
          obtain rfl : org' = org := Option.some.inj operand
          refine keepsValue_of_replaces rfl (replaces_immediate fun environment s knows => ?_)
          simp only [Instr.exec, State.operand_imm, State.operand_reg,
            knows org' value nonzero known_org]
  | _ => simp [orgReg] at operand

/-! The marks. -/

def sources : Instr Reg F → Reg × Reg × Reg
  | .alu _ _ srcReg (.reg orgReg) => (srcReg, orgReg, 0)
  | .load _ _ baseReg (.reg orgReg) => (baseReg, orgReg, 0)
  | .loadDouble _ baseReg (.reg orgReg) => (baseReg, orgReg, 0)
  | .store _ srcReg baseReg (.reg orgReg) => (baseReg, orgReg, srcReg)
  | .storeDouble srcReg baseReg (.reg orgReg) => (baseReg, orgReg, srcReg)
  | _ => (0, 0, 0)

structure MarksSources (node : InstrNode F) : Prop where
  first : node.lastUsedRegs.first = 0 ∨ node.lastUsedRegs.first = (sources node.instr).1
  second : node.lastUsedRegs.second = 0 ∨ node.lastUsedRegs.second = (sources node.instr).2.1
  third : node.lastUsedRegs.third = 0 ∨ node.lastUsedRegs.third = (sources node.instr).2.2

def marksOf (nodes : List (InstrNode F)) : List Reg :=
  nodes.flatMap (·.lastUsedRegs.marks)

def KeepsMarks (lastUsedRegs : LastUsedRegs) (nodes : List (InstrNode F)) : Prop :=
  (marksOf nodes).Nodup ∧ ∀ r, r ∈ marksOf nodes ↔ r ∈ lastUsedRegs.marks

theorem keepsMarks_iff_nodup {lastUsedRegs : LastUsedRegs} {nodes : List (InstrNode F)}
    (same : (marksOf nodes).Perm lastUsedRegs.marks) :
    KeepsMarks lastUsedRegs nodes ↔ lastUsedRegs.marks.Nodup :=
  ⟨fun keeps => same.nodup_iff.mp keeps.1, fun once => ⟨same.nodup_iff.mpr once, fun _ => same.mem_iff⟩⟩

theorem marksOf_orgMarker {orgReg : Reg} (nonzero : orgReg ≠ 0) (lastUsedRegs : LastUsedRegs)
    (nodes : List (InstrNode F)) :
    marksOf (orgMarker lastUsedRegs orgReg ++ nodes) =
      (if lastUsedRegs.second = orgReg then [orgReg] else []) ++ marksOf nodes := by
  unfold orgMarker
  split
  · simp [marksOf, lastUse, LastUsedRegs.marks, nonzero]
  · rfl

theorem marks_perm {orgReg : Reg} (nonzero : orgReg ≠ 0) (lastUsedRegs : LastUsedRegs)
    (marked : lastUsedRegs.second = 0 ∨ lastUsedRegs.second = orgReg) :
    ((if lastUsedRegs.second = orgReg then [orgReg] else []) ++
      [lastUsedRegs.first, lastUsedRegs.third].filter (· ≠ 0)).Perm lastUsedRegs.marks := by
  obtain ⟨first, second, third⟩ := lastUsedRegs
  rcases marked with unmarked | marked
  · obtain rfl : second = 0 := unmarked
    rw [if_neg (Ne.symm nonzero)]
    simp [LastUsedRegs.marks, List.filter_cons]
  · obtain rfl : second = orgReg := marked
    have front : (if second = second then [second] else []) ++ [first, third].filter (· ≠ 0) =
        [second, first, third].filter (· ≠ 0) := by
      simp [List.filter_cons, nonzero]
    rw [front]
    exact (List.Perm.swap first second [third]).filter _

theorem mem_marks {first second r : Reg} :
    r ∈ (LastUsedRegs.mk first second 0).marks ↔ r ≠ 0 ∧ (r = first ∨ r = second) := by
  simp only [LastUsedRegs.marks, List.mem_filter, List.mem_cons, List.not_mem_nil, or_false,
    decide_eq_true_eq]
  constructor
  · rintro ⟨rfl | rfl | rfl, nonzero⟩
    · exact ⟨nonzero, .inl rfl⟩
    · exact ⟨nonzero, .inr rfl⟩
    · contradiction
  · rintro ⟨nonzero, marked⟩
    exact ⟨or_assoc.mp (.inl marked), nonzero⟩

theorem keepsMarks_singleton {first second orgReg : Reg} (nonzero : orgReg ≠ 0)
    (marked : second = 0 ∨ second = orgReg) :
    ([orgReg].Nodup ∧ ∀ r, r ∈ [orgReg] ↔ r ∈ (LastUsedRegs.mk first second 0).marks) ↔
      first = orgReg ∨ (first = 0 ∧ second = orgReg) := by
  have once : [orgReg].Nodup := List.nodup_singleton orgReg
  simp only [and_iff_right once, List.mem_singleton, mem_marks]
  constructor
  · intro same
    by_cases zero : first = 0
    · rcases ((same orgReg).mp rfl).2 with own | own
      · exact .inl own.symm
      · exact .inr ⟨zero, own.symm⟩
    · exact .inl ((same first).mpr ⟨zero, .inl rfl⟩)
  · rintro (rfl | ⟨rfl, rfl⟩) r
    · constructor
      · rintro rfl
        exact ⟨nonzero, .inl rfl⟩
      · rintro ⟨used, rfl | rfl⟩
        · rfl
        · exact marked.resolve_left used
    · constructor
      · rintro rfl
        exact ⟨nonzero, .inr rfl⟩
      · rintro ⟨used, rfl | rfl⟩
        · contradiction
        · rfl

theorem keepsMarks_nil {second : Reg} :
    (([] : List Reg).Nodup ∧
      ∀ r, r ∈ ([] : List Reg) ↔ r ∈ (LastUsedRegs.mk 0 second 0).marks) ↔ second = 0 := by
  simp only [List.nodup_nil, true_and, List.not_mem_nil, false_iff, mem_marks, not_and]
  constructor
  · intro unmarked
    by_contra nonzero
    exact unmarked second nonzero (.inr rfl)
  · rintro rfl r nonzero (zero | zero)
    · exact nonzero zero
    · exact nonzero zero

theorem keepsMarks_second {first second : Reg} :
    (([second].filter (· ≠ 0)).Nodup ∧
      ∀ r, r ∈ [second].filter (· ≠ 0) ↔ r ∈ (LastUsedRegs.mk first second 0).marks) ↔
      first = 0 ∨ first = second := by
  have once : ([second].filter (· ≠ 0)).Nodup := (List.nodup_singleton second).filter _
  simp only [and_iff_right once, List.mem_filter, List.mem_singleton, decide_eq_true_eq, mem_marks]
  constructor
  · intro same
    by_cases zero : first = 0
    · exact .inl zero
    · exact .inr ((same first).mpr ⟨zero, .inl rfl⟩).1
  · intro lost r
    constructor
    · exact fun marked => ⟨marked.2, .inr marked.1⟩
    · rintro ⟨nonzero, rfl | rfl⟩
      · exact ⟨lost.resolve_left nonzero, nonzero⟩
      · exact ⟨rfl, nonzero⟩

section Marks

variable {predecessor instr : Instr Reg F} {dest src orgReg : Reg} {value : Word}
variable {lastUsedRegs : LastUsedRegs}

theorem keepsMarks_withImmediate (nonzero : orgReg ≠ 0)
    (marked : lastUsedRegs.second = 0 ∨ lastUsedRegs.second = orgReg) :
    KeepsMarks lastUsedRegs (withImmediate predecessor [] instr lastUsedRegs orgReg).nodes ↔
      lastUsedRegs.marks.Nodup := by
  refine keepsMarks_iff_nodup (List.Perm.trans ?_ (marks_perm nonzero lastUsedRegs marked))
  rw [Propagated.nodes, withImmediate, List.nil_append, marksOf_orgMarker nonzero]
  simp [marksOf, LastUsedRegs.marks, List.filter_cons]

theorem marksOf_smul_zero (nonzero : orgReg ≠ 0) (third : lastUsedRegs.third = 0) :
    marksOf (propagateSmul predecessor dest src orgReg 0 lastUsedRegs).nodes =
      if lastUsedRegs.first = src then [orgReg] else [] := by
  have unmarked : (0 : Reg) ≠ orgReg := Ne.symm nonzero
  rw [propagateSmul, if_pos rfl]
  split
  · simp [withImmediate, Propagated.nodes, orgMarker, unmarked, marksOf, lastUse,
      LastUsedRegs.marks, nonzero, third]
  · simp [withImmediate, Propagated.nodes, orgMarker, unmarked, marksOf, LastUsedRegs.marks, third]

theorem keepsMarks_smul (nonzero : orgReg ≠ 0)
    (first : lastUsedRegs.first = 0 ∨ lastUsedRegs.first = src)
    (second : lastUsedRegs.second = 0 ∨ lastUsedRegs.second = orgReg)
    (third : lastUsedRegs.third = 0) :
    KeepsMarks lastUsedRegs
        (propagateSmul predecessor dest src orgReg value lastUsedRegs).nodes ↔
      if value = 0 then
        if lastUsedRegs.first = src then
          lastUsedRegs.first = orgReg ∨ (lastUsedRegs.first = 0 ∧ lastUsedRegs.second = orgReg)
        else lastUsedRegs.second = 0
      else lastUsedRegs.marks.Nodup := by
  by_cases zero : value = 0
  · subst zero
    rw [KeepsMarks, marksOf_smul_zero nonzero third, if_pos rfl]
    obtain ⟨f, r, t⟩ := lastUsedRegs
    obtain rfl : t = 0 := third
    split
    next used => exact keepsMarks_singleton nonzero second
    next unused =>
      obtain rfl : f = 0 := first.resolve_right unused
      exact keepsMarks_nil
  · rw [if_neg zero, propagateSmul, if_neg zero]
    split
    next => exact keepsMarks_withImmediate nonzero second
    next =>
      split
      next => exact keepsMarks_withImmediate nonzero second
      next => exact keepsMarks_withImmediate nonzero second

theorem marksOf_halve (nonzero : orgReg ≠ 0)
    (first : lastUsedRegs.first = 0 ∨ lastUsedRegs.first = src)
    (second : lastUsedRegs.second = 0 ∨ lastUsedRegs.second = orgReg)
    (third : lastUsedRegs.third = 0) :
    marksOf (propagateSdiv predecessor dest src orgReg 2 lastUsedRegs).nodes =
      [lastUsedRegs.second].filter (· ≠ 0) := by
  obtain ⟨f, r, t⟩ := lastUsedRegs
  obtain rfl : t = 0 := third
  rw [propagateSdiv, if_neg (by decide), if_pos rfl]
  by_cases used : f = src
  · rcases second with unmarked | marked
    · obtain rfl : r = 0 := unmarked
      simp [withImmediate, Propagated.nodes, orgMarker, marksOf, LastUsedRegs.marks,
        LastUsedRegs.none, nonzero.symm, used]
    · obtain rfl : r = orgReg := marked
      simp [withImmediate, Propagated.nodes, orgMarker, marksOf, LastUsedRegs.marks,
        LastUsedRegs.none, lastUse, nonzero, used]
  · obtain rfl : f = 0 := first.resolve_right used
    rcases second with unmarked | marked
    · obtain rfl : r = 0 := unmarked
      simp [withImmediate, Propagated.nodes, orgMarker, marksOf, LastUsedRegs.marks,
        LastUsedRegs.none, nonzero.symm, used]
    · obtain rfl : r = orgReg := marked
      simp [withImmediate, Propagated.nodes, orgMarker, marksOf, LastUsedRegs.marks,
        LastUsedRegs.none, lastUse, nonzero, used]

theorem keepsMarks_sdiv (nonzero : orgReg ≠ 0)
    (first : lastUsedRegs.first = 0 ∨ lastUsedRegs.first = src)
    (second : lastUsedRegs.second = 0 ∨ lastUsedRegs.second = orgReg)
    (third : lastUsedRegs.third = 0) :
    KeepsMarks lastUsedRegs
        (propagateSdiv predecessor dest src orgReg value lastUsedRegs).nodes ↔
      if value = 2 then lastUsedRegs.first = 0 ∨ lastUsedRegs.first = lastUsedRegs.second
      else lastUsedRegs.marks.Nodup := by
  by_cases two : value = 2
  · subst two
    rw [KeepsMarks, marksOf_halve nonzero first second third, if_pos rfl]
    obtain ⟨f, r, t⟩ := lastUsedRegs
    obtain rfl : t = 0 := third
    exact keepsMarks_second
  · rw [if_neg two, propagateSdiv]
    split
    next => exact keepsMarks_withImmediate nonzero second
    next => exact keepsMarks_withImmediate nonzero second

theorem keepsMarks_store (nonzero : orgReg ≠ 0)
    (second : lastUsedRegs.second = 0 ∨ lastUsedRegs.second = orgReg) :
    KeepsMarks lastUsedRegs
        (orgMarker lastUsedRegs orgReg ++
          [⟨instr, ⟨lastUsedRegs.first, lastUsedRegs.third, 0⟩⟩]) ↔
      lastUsedRegs.marks.Nodup := by
  refine keepsMarks_iff_nodup (List.Perm.trans ?_ (marks_perm nonzero lastUsedRegs second))
  rw [marksOf_orgMarker nonzero]
  simp [marksOf, LastUsedRegs.marks, List.filter_cons]

end Marks

/-- No mark is lost or made up: not the variable that is multiplied by `0`, not the one that is
halved, and no variable is marked at two positions. -/
def MarksSurvive (value : Word) (node : InstrNode F) : Prop :=
  let lastUsedRegs := node.lastUsedRegs
  match node.instr with
  | .alu .smul _ srcReg (.reg orgReg) =>
      if value = 0 then
        if lastUsedRegs.first = srcReg then
          lastUsedRegs.first = orgReg ∨ (lastUsedRegs.first = 0 ∧ lastUsedRegs.second = orgReg)
        else lastUsedRegs.second = 0
      else lastUsedRegs.marks.Nodup
  | .alu .sdiv _ _ _ =>
      if value = 2 then lastUsedRegs.first = 0 ∨ lastUsedRegs.first = lastUsedRegs.second
      else lastUsedRegs.marks.Nodup
  | _ => lastUsedRegs.marks.Nodup

theorem keepsMarks_propagateConstant {predecessor : Instr Reg F} {node : InstrNode F}
    {org : Reg} {value : Word} (operand : orgReg node.instr = some org) (nonzero : org ≠ 0)
    (marked : MarksSources node) :
    KeepsMarks node.lastUsedRegs (propagateConstant predecessor org value node).nodes ↔
      MarksSurvive value node := by
  obtain ⟨instr, lastUsedRegs⟩ := node
  obtain ⟨first, second, third⟩ := marked
  cases instr with
  | alu op dest src operand' =>
      cases operand' with
      | imm value => simp [orgReg] at operand
      | reg org' =>
          obtain rfl : org' = org := by
            simp only [orgReg] at operand
            split at operand
            · contradiction
            · exact Option.some.inj operand
          have unstored : lastUsedRegs.third = 0 := or_self_iff.mp third
          cases op with
          | smul => exact keepsMarks_smul nonzero first second unstored
          | sdiv => exact keepsMarks_sdiv nonzero first second unstored
          | _ => exact keepsMarks_withImmediate nonzero second
  | load _ _ _ operand' | loadDouble _ _ operand' =>
      cases operand' with
      | imm value => simp [orgReg] at operand
      | reg org' =>
          obtain rfl : org' = org := Option.some.inj operand
          exact keepsMarks_withImmediate nonzero second
  | store _ _ _ operand' | storeDouble _ _ operand' =>
      cases operand' with
      | imm value => simp [orgReg] at operand
      | reg org' =>
          obtain rfl : org' = org := Option.some.inj operand
          exact keepsMarks_store nonzero second
  | _ => simp [orgReg] at operand

theorem countFits_of_propagateConstant {node : InstrNode F} {org : Reg} {value : Word}
    (operand : orgReg node.instr = some org) (nonzero : org ≠ 0)
    (found : immediate known org = some value)
    (keeps : KeepsValue known .nop node.instr (propagateConstant .nop org value node)) :
    CountFits known value node.instr := by
  obtain ⟨instr, lastUsedRegs⟩ := node
  cases instr with
  | alu op dest src operand' =>
      cases operand' with
      | imm value => simp [orgReg] at operand
      | reg org' =>
          obtain rfl : org' = org := by
            simp only [orgReg] at operand
            split at operand
            · contradiction
            · exact Option.some.inj operand
          cases op with
          | sll | srl | sra => exact countFits_of_keepsValue found nonzero keeps
          | _ => exact fun shifts => nomatch shifts
  | _ => trivial

/-- Where a constant is put in place of an operand, value and marks are kept behind every
predecessor just where `MarksSurvive` and `CountFits` say. -/
theorem constantPropagation_exact (known : Reg → Option Word) (node : InstrNode F) (org : Reg)
    (value : Word) (found : constantOperand known node.instr = some (org, value))
    (marked : MarksSources node) (dividend : DividesVariable node.instr) :
    (∀ predecessor : Instr Reg F,
        let propagated := constantPropagation known predecessor node
        KeepsValue known predecessor node.instr propagated ∧
          KeepsMarks node.lastUsedRegs propagated.nodes) ↔
      MarksSurvive value node ∧ CountFits known value node.instr := by
  obtain ⟨operand, nonzero, constant⟩ := constantOperand_eq found
  have rewritten (predecessor : Instr Reg F) : constantPropagation known predecessor node =
      propagateConstant predecessor org value node := by
    simp only [constantPropagation, found]
  simp only [rewritten, keepsMarks_propagateConstant operand nonzero marked]
  constructor
  · intro keeps
    exact ⟨(keeps .nop).2, countFits_of_propagateConstant operand nonzero constant (keeps .nop).1⟩
  · rintro ⟨survive, fits⟩ predecessor
    exact ⟨keepsValue_propagateConstant operand nonzero constant dividend fits, survive⟩

def isOne (value : Word) (r : Reg) : Option Word := if r = .is 1 then some value else none

def product : InstrNode Unit :=
  ⟨.alu .smul (.is 0) (.is 0) (.reg (.is 1)), ⟨.is 0, .is 1, 0⟩⟩

theorem marksSources_product : MarksSources product := ⟨.inr rfl, .inr rfl, .inl rfl⟩

theorem dividesVariable_product : DividesVariable product.instr :=
  fun _ _ _ division => by simp [product] at division

/-- Eight times a number is a shift. -/
theorem constantPropagation_exact_eight :
    constantOperand (isOne 8) product.instr = some (.is 1, 8) ∧
      let propagated := constantPropagation (isOne 8) .nop product
      KeepsValue (isOne 8) .nop product.instr propagated ∧
        KeepsMarks product.lastUsedRegs propagated.nodes := by
  have found : constantOperand (isOne 8) product.instr = some (.is 1, 8) := by decide
  have once : product.lastUsedRegs.marks.Nodup := by decide
  have exact := constantPropagation_exact (isOne 8) product (.is 1) 8 found marksSources_product
    dividesVariable_product
  exact ⟨found, exact.mpr ⟨once, fun shifts => nomatch shifts⟩ .nop⟩

/-- `iload_0; iconst_0; imul`: nothing marks the local any more. -/
theorem constantPropagation_loses_mark :
    constantOperand (isOne 0) product.instr = some (.is 1, 0) ∧ MarksSources product ∧
      DividesVariable product.instr ∧
      ¬ KeepsMarks product.lastUsedRegs (constantPropagation (isOne 0) .nop product).nodes := by
  refine ⟨by decide, marksSources_product, dividesVariable_product, fun keeps => ?_⟩
  have lost := (keeps.2 (.is 0)).mpr (by decide)
  revert lost
  decide

def shifted : InstrNode Unit :=
  ⟨.alu .sll (.is 0) (.is 0) (.reg (.is 1)), ⟨.is 0, .is 1, 0⟩⟩

/-- `iload_0; iconst_m1; ishl`: SLLX shifts the local away. -/
example : ¬ CountFits (isOne (-1)) (-1) shifted.instr := by
  intro fits
  rcases fits rfl (by decide) nofun nofun with count | ⟨-, small | ⟨c, constant, -⟩⟩
  · exact absurd count (by decide)
  · exact absurd small (by decide)
  · rw [isOne, if_neg (by decide)] at constant
    contradiction

end LaTTe.Sequences
