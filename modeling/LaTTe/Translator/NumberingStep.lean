import LaTTe.Translator.NumberingRight

namespace LaTTe.Translator.Vn

open LaTTe.Translator (Reg Var g0)

/-! One instruction: what it computes, and that its numbering stays right. -/

variable {m : Machine}

namespace Instr

def sources (instr : Instr) : List Reg :=
  match instr.format with
  | .format5 _ src _ => [src]
  | .format6 _ src1 src2 => [src1, src2]
  | _ => []

def looked (instr : Instr) : List Reg :=
  match instr.format with
  | .format4 _ src1 src2 => if src2 = g0 then [] else [src1, src2]
  | .format5 _ src _ => if instr.code.isLoad then [] else [src]
  | .format6 _ src1 src2 => [src1, src2]
  | .format7 src1 src2 _ => if src2 = g0 then [] else [src1, src2]
  | _ => []

def operand (instr : Instr) (s : Store m) : Option Value :=
  match instr.format with
  | .format5 _ _ simm13 => some (.word simm13.value)
  | .format6 _ _ src2 => some (s.read src2)
  | _ => none

def address (instr : Instr) (s : Store m) : Option (Value × Value) :=
  match instr.format with
  | .format4 _ src1 src2 => some (s.read src1, s.read src2)
  | .format5 _ src simm13 => some (s.read src, .word simm13.value)
  | _ => none

def compare (instr : Instr) (s : Store m) : Option (Value × Value) :=
  match instr.code with
  | .subcc =>
      match instr.format with
      | .format5 _ src simm13 => some (s.read src, .word simm13.value)
      | .format6 _ src1 src2 => some (s.read src1, s.read src2)
      | _ => none
  | .addcc => none
  | .setcc _ => none
  | _ => if instr.isCall then none else s.compared

end Instr

/-- The effect of an instruction.  Integer operations are given words, no load has the
format of an operation on registers, and a store or a call may leave any memory. -/
structure Executes (instr : Instr) (s t : Store m) : Prop where
  formed : instr.code.isLoad = true → ∀ dest src1 src2, instr.format ≠ .format6 dest src1 src2
  words : instr.code.isAlu = true → ∀ reg ∈ instr.sources, ∃ x, s.read reg = .word x
  value : ∀ v x, instr.destReg = some (.var v) → instr.value s = some x → t.vars v.number = x
  frame : ∀ k ∉ instr.writes, t.vars k = s.vars k
  memory : instr.isStore = false → instr.isCall = false → t.memory = s.memory
  compared : t.compared = instr.compare s

structure Regular (instr : Instr) (st : Numbering) (s : Store m) : Prop where
  /-- No register of the machine but `g0` is entered into the map. -/
  ordinary : ∀ reg ∈ instr.looked, Ordinary reg
  /-- A variable that gets a number gets a value that depends on the operands only, which a
  shift of 64 bits does not leave. -/
  determined : instr.code.isRemovable = true → ∀ v, instr.destReg = some (.var v) →
    ∃ x, instr.value s = some x
  /-- What is taken for a copy adds zero. -/
  copies : instr.isICopy = true → instr.operand s = some (.word 0)
  /-- An operand that is folded before it is resolved is zero. -/
  folds : ∀ dest src bits value, instr.format = .format5 dest src (.unresolved bits value) →
    (isConstant instr st).1.isSome = true → value = 0
  /-- A comparison leaves its operands as they are. -/
  steady : instr.code = .subcc → ∀ v, .var v ∈ instr.sources → v.number ∉ instr.writes
  /-- The other variables that the instruction changes have no number. -/
  pairs : ∀ k ∈ instr.writes, (∃ v, instr.destReg = some (.var v) ∧ v.number = k) ∨
    (assignVn instr st).map k = none

def Kept (instr : Instr) (st : Numbering) (loads : List Loaded) (s t : Store m) : Prop :=
  ∀ r ∈ (assignVn instr st).table, ∀ code op1 op2 base offset,
    r.field = .binary code op1 op2 → ⟨code, r.vn, base, offset⟩ ∈ loads →
      m.load code t.memory base offset = m.load code s.memory base offset

def loadedBy (instr : Instr) (after : Numbering) (s : Store m) : List Loaded :=
  if instr.code.isLoad then
    match instr.destReg, instr.address s with
    | some (.var v), some (base, offset) =>
        match after.map v.number with
        | some vn => [⟨instr.code, vn, base, offset⟩]
        | none => []
    | _, _ => []
  else []

section

variable {st next : Numbering} {values values' : Nat → Value} {loads : List Loaded}
variable {s t : Store m} {instr : Instr}

theorem Right.more {loads' : List Loaded} (right : Right st values loads s)
    (more : loads ⊆ loads') : Right st values loads' s :=
  right.carry (.refl st values) (fun _ _ known => ⟨known, rfl⟩) (fun _ member => member)
    (fun _ _ available code op1 op2 field isLoad =>
      ⟨more (available code op1 op2 field isLoad).1, (available code op1 op2 field isLoad).2⟩)
    (fun _ member => member) (.inr ⟨rfl, rfl, rfl⟩)

/-- A binary operation gets a number that stands for its value, whether it is a load or not. -/
theorem Right.fromBinary (right : Right st values loads s) {vn1 vn2 : Nat} {x y z : Value}
    (first : Stands m st values vn1 x) (second : Stands m st values vn2 y)
    (plain : instr.code.isLoad = false → z = m.alu instr.code x y)
    (loaded : instr.code.isLoad = true → z = m.load instr.code s.memory x y ∧
      ⟨instr.code, (st.fromBinary instr vn1 vn2).1, x, y⟩ ∈ loads) :
    Gives loads s st values (st.fromBinary instr vn1 vn2) z := by
  have skipped := right.skip (Nat.le_succ _) st.currentUndef
  have first' := first.grow skipped.grows
  have second' := second.grow skipped.grows
  unfold Numbering.fromBinary at loaded ⊢
  cases found : Numbering.find { st with currentVn := st.currentVn + 1 }
      (.binary instr.code vn1 vn2) with
  | some r =>
      simp only [found] at loaded ⊢
      obtain ⟨member, field⟩ := find_eq_some found (fun _ absurd => nomatch absurd)
      obtain ⟨known, named, available⟩ := skipped.right.table r member
      refine ⟨values, skipped, r, known, rfl, named.below, named.known, ?_⟩
      cases isLoad : instr.code.isLoad with
      | true =>
          rw [(available _ _ _ field isLoad).2, first'.value, second'.value, (loaded isLoad).1]
      | false =>
          have equal := named.known
          simp only [Known, field] at equal
          rw [equal.2.2 isLoad, first'.value, second'.value, plain isLoad]
  | none =>
      simp only [found] at loaded ⊢
      have below1 : vn1 < st.currentVn + 1 := first'.below
      have below2 : vn2 < st.currentVn + 1 := second'.below
      have same1 : Function.update values (st.currentVn + 1) z vn1 = x :=
        (Function.update_of_ne (Nat.ne_of_lt below1) _ _).trans first'.value
      have same2 : Function.update values (st.currentVn + 1) z vn2 = y :=
        (Function.update_of_ne (Nat.ne_of_lt below2) _ _).trans second'.value
      have registered : Gives loads s { st with currentVn := st.currentVn + 1 } values
          (Numbering.register { st with currentVn := st.currentVn + 1 }
            (.binary instr.code vn1 vn2) (some instr)) z := by
        refine skipped.right.register ⟨below1, below2, fun isPlain => ?_⟩ ?_
        · simp only [same1, same2]
          rw [Function.update_self]
          exact plain isPlain
        · intro code op1 op2 field isLoad
          simp only [RhsField.binary.injEq] at field
          obtain ⟨rfl, rfl, rfl⟩ := field
          simp only [same1, same2]
          rw [Function.update_self]
          exact ⟨(loaded isLoad).2, (loaded isLoad).1⟩
      obtain ⟨values', extended, stands⟩ := registered
      exact ⟨values', skipped.trans extended, stands⟩

theorem Stands.const {vn : Nat} {x : Value} {value : BitVec 32} (stands : Stands m st values vn x)
    (constant : st.rhsOfConst vn = some value) : x = .word value := by
  obtain ⟨r, known, rfl, named⟩ := stands
  have equal := named.known
  simp only [Numbering.rhsOfConst, known] at constant
  cases field : r.field with
  | const value' =>
      simp only [field, Option.some.injEq] at constant
      simp only [Known, field] at equal
      rw [← named.value, equal, constant]
  | undef number => simp only [field] at constant; contradiction
  | binary code op1 op2 => simp only [field] at constant; contradiction

theorem Right.isConstant_registers (right : Right st values loads s) (code : Opcode)
    (dest : Reg) {src1 src2 : Reg} (ordinary1 : Ordinary src1) (ordinary2 : Ordinary src2) :
    ∃ values', Extended loads s st (isConstant ⟨code, .format6 dest src1 src2⟩ st).2
        values values' ∧
      ∀ z, (isConstant ⟨code, .format6 dest src1 src2⟩ st).1 = some z →
        m.alu code (s.read src1) (s.read src2) = .word z := by
  simp only [isConstant]
  split
  · obtain ⟨values1, extended1, stands1⟩ := right.fromVar ordinary1
    cases const1 : (st.fromVar src1).2.rhsOfConst (st.fromVar src1).1 with
    | none => exact ⟨values1, extended1, fun z absurd => nomatch absurd⟩
    | some a =>
        obtain ⟨values2, extended2, stands2⟩ := extended1.right.fromVar ordinary2
        have extended := extended1.trans extended2
        simp only
        cases const2 : ((st.fromVar src1).2.fromVar src2).2.rhsOfConst
            ((st.fromVar src1).2.fromVar src2).1 with
        | none => exact ⟨values2, extended, fun z absurd => nomatch absurd⟩
        | some b =>
            refine ⟨values2, extended, fun z folded => ?_⟩
            rw [stands1.const const1, stands2.const const2]
            exact m.alu_fold folded
  · exact ⟨values, .refl right, fun z absurd => nomatch absurd⟩

theorem Right.isConstant_immediate (right : Right st values loads s) {code : Opcode}
    {dest src : Reg} {imm : Imm} (ordinary : Ordinary src)
    (folds : ∀ bits value, imm = .unresolved bits value →
      (isConstant ⟨code, .format5 dest src imm⟩ st).1.isSome = true → value = 0) :
    ∃ values', Extended loads s st (isConstant ⟨code, .format5 dest src imm⟩ st).2
        values values' ∧
      ∀ z, (isConstant ⟨code, .format5 dest src imm⟩ st).1 = some z →
        m.alu code (s.read src) (.word imm.value) = .word z := by
  simp only [isConstant] at folds ⊢
  split
  · rename_i isAlu
    simp only [if_pos isAlu] at folds
    obtain ⟨values1, extended1, stands1⟩ := right.fromVar ordinary
    cases const1 : (st.fromVar src).2.rhsOfConst (st.fromVar src).1 with
    | none => exact ⟨values1, extended1, fun z absurd => nomatch absurd⟩
    | some a =>
        simp only [const1] at folds
        refine ⟨values1, ?_, ?_⟩
        · cases imm <;> exact extended1
        · intro z folded
          rw [stands1.const const1]
          cases imm with
          | resolved value => exact m.alu_fold folded
          | unresolved bits value =>
              have zero := folds bits value rfl (by rw [folded]; rfl)
              rw [zero]
              exact m.alu_fold folded
  · exact ⟨values, .refl right, fun z absurd => nomatch absurd⟩

theorem Gives.define {loads' : List Loaded} {result : Nat × Numbering} {x : Value} {v : Var}
    (gives : Gives loads s st values result x) (assigned : t.vars v.number = x)
    (frame : ∀ k vn, k ≠ v.number → (result.2.insert (.var v) result.1).map k = some vn →
      t.vars k = s.vars k)
    (available : ∀ values' r, Available values' loads s r → r ∈ result.2.table →
      Available values' loads' t r)
    (compared : t.compared = s.compared) :
    ∃ values', Extended loads' t st (result.2.insert (.var v) result.1) values values' := by
  obtain ⟨values', extended, stands⟩ := gives
  have apart : ∀ k vn, (result.2.erase (.var v)).map k = some vn → k ≠ v.number ∧
      result.2.map k = some vn := by
    intro k vn known
    by_cases same : k = v.number
    · rw [same, result.2.erase_map_self] at known
      contradiction
    · exact ⟨same, (result.2.erase_map_other same).symm.trans known⟩
  have erased : Right (result.2.erase (.var v)) values' loads' t := by
    refine extended.right.carry (.of_eq rfl rfl) (fun k vn known => ?_)
      (fun _ member => member) (fun r member loaded => available values' r loaded member)
      (fun _ member => member) (.inr ⟨compared, rfl, rfl⟩)
    obtain ⟨other, known⟩ := apart k vn known
    exact ⟨known, frame k vn other ((result.2.insert_map_other other _).trans known)⟩
  have stands' : Stands m (result.2.erase (.var v)) values' result.1 (t.vars v.number) := by
    rw [assigned]
    exact stands.grow (.of_eq rfl rfl)
  have inserted := erased.insert stands'
  refine ⟨values', extended.grows.trans (.of_eq rfl rfl), ?_, extended.checks⟩
  have same : (result.2.erase (.var v)).insert (.var v) result.1 =
      result.2.insert (.var v) result.1 := by
    simp only [Numbering.erase, Numbering.insert, Function.update_idem]
  exact same ▸ inserted.right

theorem Right.drop {loads' : List Loaded} (right : Right st values loads s)
    (map : ∀ k vn, next.map k = some vn → st.map k = some vn ∧ t.vars k = s.vars k)
    (table : ∀ r ∈ next.table, r ∈ st.table)
    (available : ∀ values' r, Available values' loads s r → r ∈ next.table →
      Available values' loads' t r)
    (le : st.currentVn ≤ next.currentVn) (rhsOf : next.rhsOf = st.rhsOf)
    (checks : next.checks = st.checks) (compared : t.compared = s.compared) :
    Extended loads' t st next values values := by
  obtain ⟨stack, prevLeft, prevRight⟩ : next.stack = st.stack ∧ next.prevLeft = st.prevLeft ∧
      next.prevRight = st.prevRight := by
    simpa only [Numbering.checks, Prod.mk.injEq] using checks
  have grows : Grows st next values values := ⟨le, fun _ _ => rfl, fun _ _ => by rw [rhsOf]⟩
  exact ⟨grows, right.carry grows map table (fun r member loaded => available _ r loaded member)
    (fun _ member => stack ▸ member) (.inr ⟨compared, prevLeft, prevRight⟩), checks⟩

structure Follows (instr : Instr) (st : Numbering) (loads loads' : List Loaded) (s t : Store m) :
    Prop where
  regular : Regular instr st s
  executes : Executes instr s t
  kept : Kept instr st loads s t
  more : loads ⊆ loads'
  loaded : loadedBy instr (assignVn instr st) s ⊆ loads'

namespace Follows

variable {loads' : List Loaded} {v : Var}

section

variable (follows : Follows instr st loads loads' s t)

include follows

theorem frame {k vn : Nat} (apart : ∀ v, instr.destReg = some (.var v) → k ≠ v.number)
    (known : (assignVn instr st).map k = some vn) : t.vars k = s.vars k := by
  apply follows.executes.frame
  intro written
  rcases follows.regular.pairs k written with ⟨v, dest, same⟩ | unknown
  · exact apart v dest same.symm
  · rw [known] at unknown
    contradiction

theorem still (dest : instr.destReg = some (.var v)) : t.memory = s.memory := by
  apply follows.executes.memory
  · cases format : instr.format <;> simp [Instr.destReg, Instr.isStore, format] at dest ⊢
  · cases format : instr.format <;> simp [Instr.destReg, Instr.isCall, format] at dest ⊢

theorem assigned
    (removable : instr.code.isRemovable = true) (dest : instr.destReg = some (.var v)) :
    instr.value s = some (t.vars v.number) := by
  obtain ⟨x, value⟩ := follows.regular.determined removable v dest
  rw [value, follows.executes.value v x dest value]

theorem define (dest : instr.destReg = some (.var v)) {result : Nat × Numbering}
    (equal : assignVn instr st = result.2.insert (.var v) result.1)
    (gives : Gives loads' s st values result (t.vars v.number)) :
    ∃ values', Extended loads' { t with compared := s.compared } st (assignVn instr st)
      values values' := by
  rw [equal]
  refine gives.define (t := { t with compared := s.compared }) rfl ?_ ?_ rfl
  · intro k vn other known
    refine follows.frame (fun v' dest' same => ?_) (equal ▸ known)
    rw [dest, Option.some.injEq, Reg.var.injEq] at dest'
    exact other (dest' ▸ same)
  · intro values' r available _ code op1 op2 field isLoad
    have unchanged : Store.memory { t with compared := s.compared } = s.memory :=
      follows.still dest
    rw [unchanged]
    exact available code op1 op2 field isLoad

theorem drop (right : Right st values loads s) (equal : assignVn instr st = next)
    (map : ∀ k vn, next.map k = some vn → st.map k = some vn ∧
      ∀ v, instr.destReg = some (.var v) → k ≠ v.number)
    (table : ∀ r ∈ next.table, r ∈ st.table) (le : st.currentVn ≤ next.currentVn)
    (rhsOf : next.rhsOf = st.rhsOf) (checks : next.checks = st.checks) :
    ∃ values', Extended loads' { t with compared := s.compared } st (assignVn instr st)
      values values' := by
  subst equal
  refine ⟨values, right.drop (t := { t with compared := s.compared }) (fun k vn known => ?_) table
    (fun values' r available member code op1 op2 field isLoad => ?_) le rhsOf checks rfl⟩
  · obtain ⟨before, apart⟩ := map k vn known
    exact ⟨before, follows.frame apart known⟩
  · obtain ⟨loaded, equal⟩ := available code op1 op2 field isLoad
    exact ⟨follows.more loaded,
      equal.trans (follows.kept r member code op1 op2 _ _ field loaded).symm⟩

theorem keep (right : Right st values loads s)
    (equal : assignVn instr st = st) (dest : ∀ v, instr.destReg ≠ some (.var v)) :
    ∃ values', Extended loads' { t with compared := s.compared } st (assignVn instr st)
      values values' :=
  follows.drop right equal (fun _ _ known => ⟨known, fun v absurd => nomatch dest v absurd⟩)
    (fun _ member => member) (Nat.le_refl _) rfl rfl

theorem erase (right : Right st values loads s)
    (equal : assignVn instr st = st.erase (.var v)) (dest : instr.destReg = some (.var v)) :
    ∃ values', Extended loads' { t with compared := s.compared } st (assignVn instr st)
      values values' := by
  refine follows.drop right equal (fun k vn known => ?_) (fun _ member => member)
    (Nat.le_refl _) rfl rfl
  by_cases same : k = v.number
  · rw [same, st.erase_map_self] at known
    contradiction
  · refine ⟨(st.erase_map_other same).symm.trans known, fun v' dest' => ?_⟩
    rw [dest, Option.some.injEq, Reg.var.injEq] at dest'
    exact dest' ▸ same

theorem record (dest : instr.destReg = some (.var v)) {base offset : Value}
    (address : instr.address s = some (base, offset)) (isLoad : instr.code.isLoad = true)
    {result : Nat × Numbering} (equal : assignVn instr st = result.2.insert (.var v) result.1) :
    ⟨instr.code, result.1, base, offset⟩ ∈ loads' := by
  apply follows.loaded
  simp only [loadedBy, isLoad, dest, address, equal, Numbering.insert_map_self, if_true,
    List.mem_singleton]

end

section

variable {code : Opcode} {src src1 src2 : Reg} {imm : Imm}

theorem assignHigh (follows : Follows ⟨code, .format2 (.var v) imm⟩ st loads loads' s t)
    (right : Right st values loads s) (removable : code.isRemovable = true) :
    ∃ values', Extended loads' { t with compared := s.compared } st
      (assignVn ⟨code, .format2 (.var v) imm⟩ st) values values' := by
  have assigned := follows.assigned removable rfl
  simp only [Instr.value] at assigned
  split at assigned
  · rename_i sethi
    subst sethi
    have gives := (right.more follows.more).fromImm imm.high
    rw [Option.some.inj assigned] at gives
    exact follows.define rfl rfl gives
  · contradiction

theorem assignLoad (follows : Follows ⟨code, .format4 (.var v) src1 src2⟩ st loads loads' s t)
    (right : Right st values loads s) (removable : code.isRemovable = true) :
    ∃ values', Extended loads' { t with compared := s.compared } st
      (assignVn ⟨code, .format4 (.var v) src1 src2⟩ st) values values' := by
  have assigned := follows.assigned removable rfl
  simp only [Instr.value] at assigned
  split at assigned
  · rename_i isLoad
    let base := st.fromAddress src1
    let offset := base.2.fromOffset src2
    let result := offset.2.fromBinary ⟨code, .format4 (.var v) src1 src2⟩ base.1 offset.1
    have equal : assignVn ⟨code, .format4 (.var v) src1 src2⟩ st =
        result.2.insert (.var v) result.1 := by
      simp only [assignVn, removable, isLoad, Bool.not_true, Bool.false_eq_true, if_false,
        if_true]
      rfl
    obtain ⟨values1, extended1, stands1⟩ := (right.more follows.more).fromAddress src1
    obtain ⟨values2, extended2, stands2⟩ := extended1.right.fromOffset src2
    have gives : Gives loads' s offset.2 values2 result (t.vars v.number) :=
      extended2.right.fromBinary (stands1.grow extended2.grows) stands2
        (fun plain => absurd isLoad (ne_true_of_eq_false plain))
        (fun _ => ⟨(Option.some.inj assigned).symm, follows.record rfl rfl isLoad equal⟩)
    obtain ⟨values3, extended3, stands3⟩ := gives
    exact follows.define rfl equal
      ⟨values3, (extended1.trans extended2).trans extended3, stands3⟩
  · contradiction

theorem copied (follows : Follows instr st loads loads' s t) (isCopy : instr.isICopy = true)
    (src : Reg) (rest : List Reg) (sources : instr.sources = src :: rest) {x : Value}
    (value : ∀ second, instr.operand s = some second →
      instr.value s = some (m.alu instr.code (s.read src) second))
    (assigned : instr.value s = some x) : s.read src = x := by
  have code : instr.code = .add := by
    simp only [Instr.isICopy, Bool.and_eq_true, decide_eq_true_eq] at isCopy
    exact isCopy.1
  have isAlu : instr.code.isAlu = true := by rw [code]; rfl
  obtain ⟨bits, word⟩ := follows.executes.words isAlu src (sources ▸ List.mem_cons_self)
  rw [value _ (follows.regular.copies isCopy), Option.some.injEq, word, code,
    show m.alu .add (.word bits) (.word 0) = .word (bits + 0) from rfl] at assigned
  rw [word, ← assigned]
  exact congrArg Value.word (BitVec.add_zero bits).symm

/-- The result of an operation with an immediate, or of a load with one. -/
theorem assignImmediate (follows : Follows ⟨code, .format5 (.var v) src imm⟩ st loads loads' s t)
    (right : Right st values loads s) (removable : code.isRemovable = true) :
    ∃ values', Extended loads' { t with compared := s.compared } st
      (assignVn ⟨code, .format5 (.var v) src imm⟩ st) values values' := by
  have assigned := follows.assigned removable rfl
  have right' := right.more follows.more
  have looked : code.isLoad = false → Ordinary src := by
    intro plain
    refine follows.regular.ordinary src ?_
    simp only [Instr.looked, plain, Bool.false_eq_true, if_false, List.mem_singleton]
  cases isCopy : (⟨code, .format5 (.var v) src imm⟩ : Instr).isICopy with
  | true =>
      have isAdd : code = .add := by
        simp only [Instr.isICopy, Bool.and_eq_true, decide_eq_true_eq] at isCopy
        exact isCopy.1
      subst isAdd
      have gives := right'.fromVar (looked rfl)
      rw [follows.copied isCopy src [] rfl (fun second known => by cases known; rfl) assigned]
        at gives
      refine follows.define rfl ?_ gives
      simp only [assignVn, isCopy]
      rfl
  | false =>
      cases isLoad : code.isLoad with
      | true =>
          let base := st.fromAddress src
          let offset := base.2.fromImm imm
          let result := offset.2.fromBinary ⟨code, .format5 (.var v) src imm⟩ base.1 offset.1
          have equal : assignVn ⟨code, .format5 (.var v) src imm⟩ st =
              result.2.insert (.var v) result.1 := by
            simp only [assignVn, removable, isCopy, isLoad]
            rfl
          simp only [Instr.value, isLoad, if_true, Option.some.injEq] at assigned
          obtain ⟨values1, extended1, stands1⟩ := right'.fromAddress src
          obtain ⟨values2, extended2, stands2⟩ := extended1.right.fromImm imm
          have gives : Gives loads' s offset.2 values2 result (t.vars v.number) :=
            extended2.right.fromBinary (stands1.grow extended2.grows) stands2
              (fun plain => absurd isLoad (ne_true_of_eq_false plain))
              (fun _ => ⟨assigned.symm, follows.record rfl rfl isLoad equal⟩)
          obtain ⟨values3, extended3, stands3⟩ := gives
          exact follows.define rfl equal
            ⟨values3, (extended1.trans extended2).trans extended3, stands3⟩
      | false =>
          simp only [Instr.value, isLoad, Bool.false_eq_true, if_false] at assigned
          split at assigned
          · rw [Option.some.injEq] at assigned
            obtain ⟨values1, extended1, folded⟩ := right'.isConstant_immediate (looked isLoad)
              (fun bits value equal => follows.regular.folds _ _ bits value (by rw [equal]))
            cases constant : isConstant ⟨code, .format5 (.var v) src imm⟩ st with
            | mk value next =>
                rw [constant] at extended1 folded
                cases value with
                | some z =>
                    obtain ⟨values2, extended2, stands2⟩ := extended1.right.fromConst z
                    rw [← folded z rfl, assigned] at stands2
                    refine follows.define rfl ?_ ⟨values2, extended1.trans extended2, stands2⟩
                    simp only [assignVn, removable, isCopy, isLoad, constant]
                    rfl
                | none =>
                    obtain ⟨values2, extended2, stands2⟩ :=
                      extended1.right.fromVar (looked isLoad)
                    obtain ⟨values3, extended3, stands3⟩ := extended2.right.fromImm imm
                    have gives : Gives loads' s ((next.fromVar src).2.fromImm imm).2 values3
                        (((next.fromVar src).2.fromImm imm).2.fromBinary
                          ⟨code, .format5 (.var v) src imm⟩ (next.fromVar src).1
                          ((next.fromVar src).2.fromImm imm).1) (t.vars v.number) :=
                      extended3.right.fromBinary (stands2.grow extended3.grows) stands3
                        (fun _ => assigned.symm) (fun absurd => nomatch isLoad.symm.trans absurd)
                    obtain ⟨values4, extended4, stands4⟩ := gives
                    refine follows.define rfl ?_ ⟨values4, ((extended1.trans extended2).trans
                      extended3).trans extended4, stands4⟩
                    simp only [assignVn, removable, isCopy, isLoad, constant]
                    rfl
          · contradiction

/-- The result of an operation on registers. -/
theorem assignRegisters
    (follows : Follows ⟨code, .format6 (.var v) src1 src2⟩ st loads loads' s t)
    (right : Right st values loads s) (removable : code.isRemovable = true) :
    ∃ values', Extended loads' { t with compared := s.compared } st
      (assignVn ⟨code, .format6 (.var v) src1 src2⟩ st) values values' := by
  have assigned := follows.assigned removable rfl
  have right' := right.more follows.more
  have looked1 : Ordinary src1 := follows.regular.ordinary src1 List.mem_cons_self
  have looked2 : Ordinary src2 :=
    follows.regular.ordinary src2 (List.mem_cons_of_mem _ List.mem_cons_self)
  cases isCopy : (⟨code, .format6 (.var v) src1 src2⟩ : Instr).isICopy with
  | true =>
      have isAdd : code = .add := by
        simp only [Instr.isICopy, Bool.and_eq_true, decide_eq_true_eq] at isCopy
        exact isCopy.1
      subst isAdd
      have gives := right'.fromVar looked1
      rw [follows.copied isCopy src1 [src2] rfl (fun second known => by cases known; rfl)
        assigned] at gives
      refine follows.define rfl ?_ gives
      simp only [assignVn, isCopy]
      rfl
  | false =>
      cases isFCopy : (⟨code, .format6 (.var v) src1 src2⟩ : Instr).isFCopy with
      | true =>
          simp only [Instr.value, isFCopy, if_true, Option.some.injEq] at assigned
          have gives := right'.fromVar looked2
          rw [assigned] at gives
          refine follows.define rfl ?_ gives
          simp only [assignVn, removable, isCopy, isFCopy]
          rfl
      | false =>
          simp only [Instr.value, isFCopy, Bool.false_eq_true, if_false] at assigned
          split at assigned
          · rename_i plain
            have isLoad : code.isLoad = false := by
              cases code <;> first | rfl | simp [Instr.isPlain, Opcode.isLoad] at plain
            rw [Option.some.injEq] at assigned
            obtain ⟨values1, extended1, folded⟩ :=
              right'.isConstant_registers code (.var v) looked1 looked2
            cases constant : isConstant ⟨code, .format6 (.var v) src1 src2⟩ st with
            | mk value next =>
                rw [constant] at extended1 folded
                cases value with
                | some z =>
                    obtain ⟨values2, extended2, stands2⟩ := extended1.right.fromConst z
                    rw [← folded z rfl, assigned] at stands2
                    refine follows.define rfl ?_ ⟨values2, extended1.trans extended2, stands2⟩
                    simp only [assignVn, removable, isCopy, isFCopy, constant]
                    rfl
                | none =>
                    obtain ⟨values2, extended2, stands2⟩ := extended1.right.fromVar looked1
                    obtain ⟨values3, extended3, stands3⟩ := extended2.right.fromVar looked2
                    have gives : Gives loads' s ((next.fromVar src1).2.fromVar src2).2 values3
                        (((next.fromVar src1).2.fromVar src2).2.fromBinary
                          ⟨code, .format6 (.var v) src1 src2⟩ (next.fromVar src1).1
                          ((next.fromVar src1).2.fromVar src2).1) (t.vars v.number) :=
                      extended3.right.fromBinary (stands2.grow extended3.grows) stands3
                        (fun _ => assigned.symm) (fun absurd => nomatch isLoad.symm.trans absurd)
                    obtain ⟨values4, extended4, stands4⟩ := gives
                    refine follows.define rfl ?_ ⟨values4, ((extended1.trans extended2).trans
                      extended3).trans extended4, stands4⟩
                    simp only [assignVn, removable, isCopy, isFCopy, constant]
                    rfl
          · contradiction

end

theorem assignStore (follows : Follows instr st loads loads' s t) {base : Nat × Numbering}
    {offset : Nat × Numbering} {x y : Value} (first : Gives loads s st values base x)
    (second : ∀ values', Right base.2 values' loads s → Gives loads s base.2 values' offset y)
    (equal : assignVn instr st = offset.2.store base.1 offset.1)
    (dest : ∀ v, instr.destReg ≠ some (.var v)) :
    ∃ values', Extended loads' { t with compared := s.compared } st (assignVn instr st)
      values values' := by
  obtain ⟨values1, extended1, _⟩ := first
  obtain ⟨values2, extended2, _⟩ := second values1 extended1.right
  have extended := extended1.trans extended2
  have kept := follows.kept
  have frame : ∀ k vn, (Vn.assignVn instr st).map k = some vn → t.vars k = s.vars k :=
    fun k vn known => follows.frame (fun v absurd => nomatch dest v absurd) known
  rw [Kept, equal] at kept
  rw [equal] at frame ⊢
  refine ⟨values2, ?_⟩
  have dropped : Extended loads' { t with compared := s.compared } offset.2
      (offset.2.store base.1 offset.1) values2 values2 := by
    refine extended2.right.drop (fun k vn known => ⟨known, frame k vn known⟩)
      (fun r member => List.mem_of_mem_filter member)
      (fun values' r available member code op1 op2 field isLoad => ?_) (Nat.le_succ _) rfl rfl
      rfl
    obtain ⟨loaded, read⟩ := available code op1 op2 field isLoad
    exact ⟨follows.more loaded, read.trans (kept r member code op1 op2 _ _ field loaded).symm⟩
  exact ⟨extended.grows.trans dropped.grows, dropped.right, dropped.checks.trans extended.checks⟩

theorem assignCall {code : Opcode} {rets : List Var}
    (follows : Follows ⟨code, .call rets⟩ st loads loads' s t)
    (right : Right st values loads s) (removable : code.isRemovable = true) :
    ∃ values', Extended loads' { t with compared := s.compared } st
      (assignVn ⟨code, .call rets⟩ st) values values' := by
  have equal : assignVn ⟨code, .call rets⟩ st = rets.foldl (fun st ret => st.erase (.var ret))
      { st with table := st.table.filter survivesCall } := by
    simp only [assignVn, removable]
    rfl
  have erases : ∀ (rets : List Var) (st : Numbering),
      ∃ map, rets.foldl (fun st ret => st.erase (.var ret)) st = { st with map := map } ∧
        ∀ k vn, map k = some vn → st.map k = some vn := by
    intro rets
    induction rets with
    | nil => exact fun st => ⟨st.map, rfl, fun _ _ known => known⟩
    | cons ret rest ih =>
        intro st
        obtain ⟨map, result, included⟩ := ih (st.erase (.var ret))
        refine ⟨map, result, fun k vn known => ?_⟩
        have known := included k vn known
        by_cases same : k = ret.number
        · rw [same, st.erase_map_self] at known
          contradiction
        · exact (st.erase_map_other same).symm.trans known
  obtain ⟨map, result, included⟩ := erases rets { st with table := st.table.filter survivesCall }
  exact follows.drop right (equal.trans result)
    (fun k vn known => ⟨included k vn known, fun v absurd => nomatch absurd⟩)
    (fun r member => List.mem_of_mem_filter member) (Nat.le_refl _) rfl rfl

/-- `assign_vn` stays right. -/
theorem assignVn (follows : Follows instr st loads loads' s t) (right : Right st values loads s) :
    ∃ values', Extended loads' { t with compared := s.compared } st (Vn.assignVn instr st)
      values values' := by
  obtain ⟨code, format⟩ := instr
  cases removable : code.isRemovable with
  | false =>
      cases dest : (⟨code, format⟩ : Instr).destReg with
      | none =>
          refine follows.keep right ?_ (fun v absurd => nomatch dest.symm.trans absurd)
          simp only [Vn.assignVn, removable, dest]
          rfl
      | some reg =>
          cases reg with
          | var v =>
              refine follows.erase right ?_ dest
              simp only [Vn.assignVn, removable, dest]
              rfl
          | hard number =>
              refine follows.keep right ?_ (fun v absurd => nomatch dest.symm.trans absurd)
              simp only [Vn.assignVn, removable, dest]
              rfl
  | true =>
      have passes : (!code.isRemovable) = false := by rw [removable]; rfl
      cases format with
      | none => exact follows.keep right (by simp only [Vn.assignVn, passes]; rfl) nofun
      | call rets => exact follows.assignCall right removable
      | format7 src1 src2 src3 =>
          exact follows.assignStore (right.fromAddress src1)
            (fun values' right => right.fromAddress src2)
            (by simp only [Vn.assignVn, passes]; rfl) nofun
      | format8 src1 src2 simm13 =>
          exact follows.assignStore (right.fromAddress src1)
            (fun values' right => right.fromImm simm13)
            (by simp only [Vn.assignVn, passes]; rfl) nofun
      | format2 dest imm22 =>
          cases dest with
          | var v => exact follows.assignHigh right removable
          | hard number => exact follows.keep right (by simp only [Vn.assignVn, passes]; rfl) nofun
      | format4 dest src1 src2 =>
          cases dest with
          | var v => exact follows.assignLoad right removable
          | hard number => exact follows.keep right (by simp only [Vn.assignVn, passes]; rfl) nofun
      | format5 dest src simm13 =>
          cases dest with
          | var v => exact follows.assignImmediate right removable
          | hard number => exact follows.keep right (by simp only [Vn.assignVn, passes]; rfl) nofun
      | format6 dest src1 src2 =>
          cases dest with
          | var v => exact follows.assignRegisters right removable
          | hard number => exact follows.keep right (by simp only [Vn.assignVn, passes]; rfl) nofun

end Follows

/-! The immediate operands that constants are propagated to. -/

inductive Rewrites (s : Store m) : Instr → Instr → Prop where
  | same (instr : Instr) : Rewrites s instr instr
  | load (code : Opcode) (dest src1 src2 : Reg) (value : BitVec 32) (isLoad : code.isLoad = true)
      (constant : s.read src2 = .word value) :
      Rewrites s ⟨code, .format4 dest src1 src2⟩ (withImmediate code dest src1 value)
  | operation (code : Opcode) (dest src1 src2 : Reg) (value : BitVec 32)
      (constant : s.read src2 = .word value) :
      Rewrites s ⟨code, .format6 dest src1 src2⟩ (withImmediate code dest src1 value)
  | store (code : Opcode) (src1 src2 src3 : Reg) (value : BitVec 32) :
      Rewrites s ⟨code, .format7 src1 src2 src3⟩ ⟨code, .format8 src1 src3 (.resolved value)⟩

theorem Right.constantPropagation (right : Right st values loads s)
    (ordinary : ∀ reg ∈ instr.looked, Ordinary reg) :
    (∃ values', Extended loads s st (constantPropagation instr st).2 values values') ∧
      Rewrites s instr (constantPropagation instr st).1 := by
  have unchanged : (∃ values', Extended loads s st st values values') ∧ Rewrites s instr instr :=
    ⟨⟨values, .refl right⟩, .same instr⟩
  have both : ∀ {src1 src2 : Reg}, Ordinary src1 → Ordinary src2 → ∃ values',
      Extended loads s st ((st.fromVar src1).2.fromVar src2).2 values values' ∧
        ∀ value, ((st.fromVar src1).2.fromVar src2).2.rhsOfConst
          ((st.fromVar src1).2.fromVar src2).1 = some value → s.read src2 = .word value := by
    intro src1 src2 ordinary1 ordinary2
    obtain ⟨values1, extended1, _⟩ := right.fromVar ordinary1
    obtain ⟨values2, extended2, stands2⟩ := extended1.right.fromVar ordinary2
    exact ⟨values2, extended1.trans extended2, fun value constant => stands2.const constant⟩
  obtain ⟨code, format⟩ := instr
  unfold Vn.constantPropagation
  split
  · exact unchanged
  · split
    · rename_i changes
      cases format with
      | format4 dest src1 src2 =>
          simp only
          split
          · exact unchanged
          · rename_i notZero
            have looked : (⟨code, .format4 dest src1 src2⟩ : Instr).looked = [src1, src2] := by
              simp only [Instr.looked, notZero, if_false]
            rw [looked] at ordinary
            obtain ⟨values', extended, constant⟩ := both
              (ordinary src1 List.mem_cons_self)
              (ordinary src2 (List.mem_cons_of_mem _ List.mem_cons_self))
            split
            · rename_i value known
              split
              · exact ⟨⟨values', extended⟩, .load code dest src1 src2 value
                  (by simpa [canChangeRegToImm, Instr.isStore] using changes)
                  (constant value known)⟩
              · exact ⟨⟨values', extended⟩, .same _⟩
            · exact ⟨⟨values', extended⟩, .same _⟩
      | format6 dest src1 src2 =>
          simp only
          split
          · exact unchanged
          · obtain ⟨values', extended, constant⟩ := both
              (ordinary src1 List.mem_cons_self)
              (ordinary src2 (List.mem_cons_of_mem _ List.mem_cons_self))
            split
            · rename_i value known
              split
              · exact ⟨⟨values', extended⟩, .operation code dest src1 src2 value
                  (constant value known)⟩
              · exact ⟨⟨values', extended⟩, .same _⟩
            · exact ⟨⟨values', extended⟩, .same _⟩
      | format7 src1 src2 src3 =>
          simp only
          split
          · exact unchanged
          · rename_i notZero
            have looked : (⟨code, .format7 src1 src2 src3⟩ : Instr).looked = [src1, src2] := by
              simp only [Instr.looked, notZero, if_false]
            rw [looked] at ordinary
            obtain ⟨values', extended, _⟩ := both
              (ordinary src1 List.mem_cons_self)
              (ordinary src2 (List.mem_cons_of_mem _ List.mem_cons_self))
            split
            · rename_i value known
              split
              · exact ⟨⟨values', extended⟩, .store code src1 src2 src3 value⟩
              · exact ⟨⟨values', extended⟩, .same _⟩
            · exact ⟨⟨values', extended⟩, .same _⟩
      | format2 dest imm22 => exact unchanged
      | format5 dest src simm13 => exact unchanged
      | format8 src1 src2 simm13 => exact unchanged
      | call rets => exact unchanged
      | none => exact unchanged
    · exact unchanged

/-- What `withImmediate` makes of an operation, besides replacing the register. -/
inductive Reduces (dest src : Reg) (value : BitVec 32) : Opcode → Instr → Prop where
  | zero (isZero : value = 0) : Reduces dest src value .smul ⟨.sethi, .format2 dest (.resolved 0)⟩
  | one (code : Opcode) (isOne : value = 1) (known : code = .smul ∨ code = .sdiv) :
      Reduces dest src value code ⟨.add, .format5 dest src (.resolved 0)⟩
  | shift (i : Nat) (small : i < 12) (power : value = BitVec.ofNat 32 (2 ^ (i + 1))) :
      Reduces dest src value .smul
        ⟨.sll, .format5 dest src (.resolved (BitVec.ofNat 32 (i + 1)))⟩
  | half (isTwo : value = 2) :
      Reduces dest src value .sdiv ⟨.sra, .format5 dest (.hard 1) (.resolved 1)⟩
  | plain (code : Opcode) : Reduces dest src value code ⟨code, .format5 dest src (.resolved value)⟩

theorem withImmediate_reduces (code : Opcode) (dest src : Reg) (value : BitVec 32) :
    Reduces dest src value code (withImmediate code dest src value) := by
  unfold withImmediate
  split
  · rename_i isMul
    subst isMul
    split
    · exact .zero ‹_›
    · split
      · exact .one _ ‹_› (.inl rfl)
      · split
        · rename_i i found
          have member := List.mem_of_find?_eq_some found
          have power := List.find?_some found
          exact .shift i (List.mem_range.mp member) (of_decide_eq_true power)
        · exact .plain _
  · split
    · rename_i isDiv
      subst isDiv
      split
      · exact .one _ ‹_› (.inr rfl)
      · split
        · exact .half ‹_›
        · exact .plain _
    · exact .plain _

theorem Executes.substitute {other : Instr} (executes : Executes instr s t)
    (formed : ∀ dest src1 src2, other.format ≠ .format6 dest src1 src2)
    (words : other.code.isAlu = true → instr.code.isAlu = true ∧
      ∀ reg ∈ other.sources, reg ∈ instr.sources)
    (dest : other.destReg = instr.destReg)
    (value : ∀ x, other.value s = some x → instr.value s = some x)
    (writes : other.writes = instr.writes) (isStore : other.isStore = instr.isStore)
    (isCall : other.isCall = instr.isCall) (compare : other.compare s = instr.compare s) :
    Executes other s t where
  formed := fun _ => formed
  words := fun isAlu reg member =>
    executes.words (words isAlu).1 reg ((words isAlu).2 reg member)
  value := fun v x dest' value' => executes.value v x (dest ▸ dest') (value x value')
  frame := fun k outside => executes.frame k (writes ▸ outside)
  memory := fun notStore notCall => executes.memory (isStore ▸ notStore) (isCall ▸ notCall)
  compared := by rw [compare]; exact executes.compared

theorem mul_two_pow (x : BitVec 32) {i : Nat} (small : i < 12) :
    x <<< ((BitVec.ofNat 32 (i + 1)).toNat % 32) = x * BitVec.ofNat 32 (2 ^ (i + 1)) := by
  have count : (BitVec.ofNat 32 (i + 1)).toNat % 32 = i + 1 := by
    rw [BitVec.toNat_ofNat]
    omega
  rw [count]
  apply BitVec.eq_of_toNat_eq
  rw [BitVec.toNat_shiftLeft, BitVec.toNat_mul, BitVec.toNat_ofNat, Nat.shiftLeft_eq,
    Nat.mul_mod_mod]

/-- An operation whose second register is known to hold a constant. -/
theorem Reduces.executes {code : Opcode} {dest src1 src2 : Reg} {value : BitVec 32}
    {other : Instr} (reduces : Reduces dest src1 value code other)
    (executes : Executes ⟨code, .format6 dest src1 src2⟩ s t)
    (constant : s.read src2 = .word value) (ordinary : ∀ reg ∈ other.looked, Ordinary reg) :
    Executes other s t := by
  have sources : ∀ reg ∈ [src1], reg ∈ [src1, src2] := by
    intro reg member
    rw [List.mem_singleton.mp member]
    exact List.mem_cons_self
  have word : code.isAlu = true → ∃ x, s.read src1 = .word x :=
    fun isAlu => executes.words isAlu src1 List.mem_cons_self
  cases reduces with
  | zero isZero =>
      obtain ⟨x, equal⟩ := word rfl
      have product : m.alu .smul (.word x) (.word 0) = .word 0 :=
        m.alu_fold (congrArg some BitVec.mul_zero)
      refine executes.substitute nofun nofun rfl (fun z known => ?_) rfl rfl rfl rfl
      show some (m.alu .smul (s.read src1) (s.read src2)) = some z
      rw [equal, constant, isZero, product]
      exact known
  | one _ isOne known =>
      obtain ⟨x, equal⟩ := word (by rcases known with rfl | rfl <;> rfl)
      have product : m.alu code (.word x) (.word 1) = .word x := by
        rcases known with rfl | rfl
        · exact m.alu_fold (congrArg some (BitVec.mul_one x))
        · exact congrArg Value.word BitVec.sdiv_one
      have sum : m.alu .add (.word x) (.word 0) = .word x :=
        m.alu_fold (congrArg some (BitVec.add_zero x))
      have same : (⟨code, .format6 dest src1 src2⟩ : Instr).value s =
          (⟨.add, .format5 dest src1 (.resolved 0)⟩ : Instr).value s := by
        rcases known with rfl | rfl <;>
        · show some (m.alu _ (s.read src1) (s.read src2)) =
            some (m.alu .add (s.read src1) (.word 0))
          rw [equal, constant, isOne, product, sum]
      refine executes.substitute nofun (fun _ => ⟨?_, sources⟩) rfl
        (fun z value => same.trans value) ?_ rfl rfl ?_ <;> rcases known with rfl | rfl <;> rfl
  | shift i small power =>
      obtain ⟨x, equal⟩ := word rfl
      have product : m.alu .smul (.word x) (.word value) =
          .word (x * BitVec.ofNat 32 (2 ^ (i + 1))) :=
        m.alu_fold (congrArg some (congrArg (x * ·) power))
      have shifted : m.alu .sll (.word x) (.word (BitVec.ofNat 32 (i + 1))) =
          .word (x * BitVec.ofNat 32 (2 ^ (i + 1))) :=
        m.alu_fold (congrArg some (mul_two_pow x small))
      refine executes.substitute nofun (fun _ => ⟨rfl, sources⟩) rfl (fun z known => ?_) rfl rfl
        rfl rfl
      have short : (⟨.sll, .format5 dest src1 (.resolved (BitVec.ofNat 32 (i + 1)))⟩ :
          Instr).isLongShift = false := by
        have bit : (i + 1).testBit 12 = false := Nat.testBit_lt_two_pow (by omega)
        show (BitVec.ofNat 32 (i + 1)).getLsbD 12 = false
        rw [BitVec.getLsbD_ofNat, bit, Bool.and_false]
      have result : (⟨.sll, .format5 dest src1 (.resolved (BitVec.ofNat 32 (i + 1)))⟩ :
          Instr).value s =
            some (m.alu .sll (s.read src1) (.word (BitVec.ofNat 32 (i + 1)))) := by
        rw [Instr.value, short]
        rfl
      rw [← known, result]
      show some (m.alu .smul (s.read src1) (s.read src2)) = _
      rw [equal, constant, product, shifted]
  | half isTwo =>
      rcases ordinary (.hard 1) List.mem_cons_self with h | ⟨v, h⟩
      · exact absurd (Reg.hard.inj h) (by decide)
      · contradiction
  | plain _ =>
      have notLoad : code.isLoad = false :=
        eq_false_of_ne_true fun isLoad => executes.formed isLoad dest src1 src2 rfl
      refine executes.substitute nofun (fun isAlu => ⟨isAlu, sources⟩) rfl (fun z known => ?_)
        rfl rfl rfl ?_
      · simp only [Instr.value, notLoad, Bool.false_eq_true, if_false] at known ⊢
        split at known
        · rename_i plain
          have notCopy : (⟨code, .format6 dest src1 src2⟩ : Instr).isFCopy = false := by
            cases code <;> first | rfl | contradiction
          have plain' : (⟨code, .format6 dest src1 src2⟩ : Instr).isPlain = true :=
            (Bool.and_eq_true _ _ ▸ plain).1
          rw [if_neg (ne_true_of_eq_false notCopy), if_pos plain', constant]
          exact known
        · contradiction
      · cases code <;> first | rfl | exact congrArg (fun x => some (s.read src1, x)) constant.symm

theorem withImmediate_load {code : Opcode} (isLoad : code.isLoad = true) (dest src : Reg)
    (value : BitVec 32) :
    withImmediate code dest src value = ⟨code, .format5 dest src (.resolved value)⟩ := by
  cases code <;> first | rfl | contradiction

theorem Rewrites.executes {other : Instr} (rewrites : Rewrites s instr other)
    (executes : Executes instr s t) (ordinary : ∀ reg ∈ other.looked, Ordinary reg) :
    Executes other s t := by
  cases rewrites with
  | same => exact executes
  | load code dest src1 src2 value isLoad constant =>
      rw [withImmediate_load isLoad]
      refine executes.substitute nofun (fun isAlu => ?_) rfl (fun x known => ?_) rfl rfl rfl ?_
      · cases code <;> contradiction
      · simp only [Instr.value, isLoad, if_true] at known ⊢
        rw [constant]
        exact known
      · cases code <;> first | rfl | contradiction
  | operation code dest src1 src2 value constant =>
      exact (withImmediate_reduces code dest src1 value).executes executes constant ordinary
  | store code src1 src2 src3 value =>
      refine executes.substitute nofun (fun isAlu => ⟨isAlu, nofun⟩) rfl nofun rfl rfl rfl ?_
      cases code <;> rfl

theorem Rewrites.loadedBy {other : Instr} (rewrites : Rewrites s instr other)
    (executes : Executes instr s t) (after : Numbering) :
    loadedBy other after s = loadedBy instr after s := by
  cases rewrites with
  | same => rfl
  | load code dest src1 src2 value isLoad constant =>
      rw [withImmediate_load isLoad]
      simp only [Vn.loadedBy, Instr.address, Instr.destReg, constant]
      rfl
  | operation code dest src1 src2 value constant =>
      have notLoad : code.isLoad = false :=
        eq_false_of_ne_true fun isLoad => executes.formed isLoad dest src1 src2 rfl
      have plain : Vn.loadedBy ⟨code, .format6 dest src1 src2⟩ after s = [] := by
        simp only [Vn.loadedBy, notLoad, Bool.false_eq_true, if_false]
      have reduces := withImmediate_reduces code dest src1 value
      rw [plain]
      unfold Vn.loadedBy
      rw [if_neg]
      generalize withImmediate code dest src1 value = other at reduces
      cases reduces with
      | plain => exact ne_true_of_eq_false notLoad
      | zero => exact Bool.false_ne_true
      | one => exact Bool.false_ne_true
      | shift => exact Bool.false_ne_true
      | half => exact Bool.false_ne_true
  | store code src1 src2 src3 value =>
      simp only [Vn.loadedBy, Instr.destReg]

/-! The comparisons. -/

theorem Right.recompare {x y : Value} (right : Right st values loads s) {left other : Rhs}
    (prevLeft : st.prevLeft = some left) (prevRight : st.prevRight = some other)
    (first : Named m st.currentVn values left x) (second : Named m st.currentVn values other y) :
    Right st values loads { s with compared := some (x, y) } := by
  refine ⟨right.map, right.table, right.stack, ?_⟩
  rintro x' y' equal
  obtain ⟨rfl, rfl⟩ := Prod.mk.inj (Option.some.inj equal)
  exact ⟨⟨left, prevLeft, first⟩, other, prevRight, second⟩

theorem Right.uncompare (right : Right st values loads { t with compared := s.compared })
    (same : t.compared = none ∨ t.compared = s.compared) : Right st values loads t :=
  right.carry (.refl st values) (fun _ _ known => ⟨known, rfl⟩) (fun _ member => member)
    (fun _ _ available => available) (fun _ member => member)
    (same.imp id fun same => ⟨same, rfl, rfl⟩)

theorem Right.forget (right : Right st values loads s) (prevLeft prevRight : Option Rhs) :
    Right { st with prevLeft := prevLeft, prevRight := prevRight } values loads
      { s with compared := none } :=
  right.carry (.of_eq rfl rfl) (fun _ _ known => ⟨known, rfl⟩) (fun _ member => member)
    (fun _ _ available => available) (fun _ member => member) (.inl rfl)

theorem Right.compare (right : Right st values loads s) {left other : Nat} {x y : Value}
    (first : Stands m st values left x) (second : Stands m st values other y)
    (prevLeft : st.prevLeft = st.rhsOf left) :
    Right { st with prevRight := st.rhsOf other } values loads
      { s with compared := some (x, y) } := by
  obtain ⟨r, known, _, named⟩ := first
  obtain ⟨r', known', _, named'⟩ := second
  exact (right.forget st.prevLeft (st.rhsOf other)).recompare (prevLeft.trans known) known' named
    named'

def Numbering.remember (st : Numbering) (src : Reg) (number : Numbering → Nat × Numbering) :
    Numbering :=
  let first := st.fromVar src
  let other := number { first.2 with prevLeft := first.2.rhsOf first.1 }
  { other.2 with prevRight := other.2.rhsOf other.1 }

theorem Right.remember (right : Right st values loads s) {src : Reg} {y : Value}
    (ordinary : Ordinary src) {number : Numbering → Nat × Numbering}
    (gives : ∀ st values, Right st values loads { s with compared := none } →
      Gives loads { s with compared := none } st values (number st) y) :
    (st.remember src number).stack = st.stack ∧
      ∃ values', Grows st (st.remember src number) values values' ∧
        Right (st.remember src number) values' loads
          { s with compared := some (s.read src, y) } := by
  have forgotten : Right st values loads { s with compared := none } :=
    right.forget st.prevLeft st.prevRight
  obtain ⟨values1, extended1, stands1⟩ := forgotten.fromVar ordinary
  have middle : Grows (st.fromVar src).2 { (st.fromVar src).2 with
      prevLeft := (st.fromVar src).2.rhsOf (st.fromVar src).1 } values1 values1 := .of_eq rfl rfl
  obtain ⟨values2, extended2, stands2⟩ := gives _ _ (extended1.right.forget
    ((st.fromVar src).2.rhsOf (st.fromVar src).1) (st.fromVar src).2.prevRight)
  have stands := (stands1.grow middle).grow extended2.grows
  obtain ⟨stack1, _⟩ := Prod.mk.inj extended1.checks
  obtain ⟨stack2, prev2⟩ := Prod.mk.inj extended2.checks
  obtain ⟨prevLeft, _⟩ := Prod.mk.inj prev2
  have last : Grows (number { (st.fromVar src).2 with
      prevLeft := (st.fromVar src).2.rhsOf (st.fromVar src).1 }).2 (st.remember src number)
      values2 values2 := .of_eq rfl rfl
  refine ⟨stack2.trans stack1, values2,
    ((extended1.grows.trans middle).trans extended2.grows).trans last, ?_⟩
  refine extended2.right.compare stands stands2 (prevLeft.trans ?_)
  exact (extended2.grows.rhsOf _ (stands1.grow middle).below).symm

theorem Right.eliminateBranch_subcc (right : Right st values loads s)
    (code : instr.code = .subcc) (ordinary : ∀ reg ∈ instr.looked, Ordinary reg) :
    (eliminateBranch instr st).1 = false ∧ (eliminateBranch instr st).2.stack = st.stack ∧
      ∃ values', Grows st (eliminateBranch instr st).2 values values' ∧
        Right (eliminateBranch instr st).2 values' loads
          { s with compared := instr.compare s } := by
  obtain ⟨code', format⟩ := instr
  simp only at code
  subst code
  cases format with
  | format6 dest src1 src2 =>
      exact ⟨rfl, right.remember (ordinary src1 List.mem_cons_self)
        (fun st values right => right.fromVar
          (ordinary src2 (List.mem_cons_of_mem _ List.mem_cons_self)))⟩
  | format5 dest src simm13 =>
      exact ⟨rfl, right.remember (ordinary src List.mem_cons_self)
        (fun st values right => right.fromImm simm13)⟩
  | _ => exact ⟨rfl, rfl, values, .refl st values, right.forget st.prevLeft st.prevRight⟩

/-- The right-hand side is one that equal ones have the value of, or it is the same one:
neither an unknown value nor a load of another number. -/
def Told (r known : Rhs) : Prop :=
  match r.field with
  | .const _ => True
  | .undef _ => r.vn = known.vn
  | .binary code _ _ => code.isLoad = true → r.vn = known.vn

instance (r known : Rhs) : Decidable (Told r known) := by
  unfold Told
  split <;> infer_instance

theorem Named.told {r known : Rhs} {x : Value} (named : Named m st.currentVn values r x)
    (other : Named m st.currentVn values known (values known.vn)) (told : Told r known)
    (equal : r.isEqual known = true) : x = values known.vn := by
  rw [← named.value]
  have first := named.known
  have second := other.known
  unfold Told at told
  unfold Rhs.isEqual at equal
  unfold Known at first second
  cases field : r.field with
  | const value =>
      cases field' : known.field with
      | const value' =>
          simp only [field, field', decide_eq_true_eq] at equal first second
          rw [first, second, equal]
      | _ => simp only [field, field'] at equal; contradiction
  | undef number =>
      simp only [field] at told
      rw [told]
  | binary code op1 op2 =>
      cases isLoad : code.isLoad with
      | true =>
          simp only [field] at told
          rw [told isLoad]
      | false =>
          cases field' : known.field with
          | binary code' op1' op2' =>
              simp only [field, field', Bool.and_eq_true, decide_eq_true_eq] at equal
              obtain ⟨⟨rfl, rfl⟩, rfl⟩ := equal
              simp only [field] at first
              simp only [field'] at second
              rw [first.2.2 isLoad, second.2.2 isLoad]
          | _ => simp only [field, field'] at equal; contradiction

end

end LaTTe.Translator.Vn
