import LaTTe.Translator.ValueNumbering

namespace LaTTe.Translator.Vn

open LaTTe.Translator (Reg Var g0)

/-! What the instructions of a region compute, and when value numbers stand for it. -/

inductive Value where
  | word (bits : BitVec 32)
  | other (content : Nat)
  deriving DecidableEq, Repr

structure Machine where
  Memory : Type
  load : Opcode → Memory → Value → Value → Value
  operate : Opcode → Value → Value → Value

/-- `compared` has the operands of the comparison that a trap would be about. -/
structure Store (m : Machine) where
  vars : Nat → Value
  hard : Nat → Value
  memory : m.Memory
  compared : Option (Value × Value)

namespace Machine

variable (m : Machine)

def alu (code : Opcode) (a b : Value) : Value :=
  match a, b with
  | .word x, .word y =>
      match foldConstant code x y with
      | some z => .word z
      | none => if code = .sdiv then .word (x.sdiv y) else m.operate code a b
  | _, _ => m.operate code a b

theorem alu_fold {code : Opcode} {x y z : BitVec 32} (folds : foldConstant code x y = some z) :
    m.alu code (.word x) (.word y) = .word z := by
  simp only [alu, folds]

end Machine

variable {m : Machine}

def Store.read (s : Store m) : Reg → Value
  | .var v => s.vars v.number
  | .hard number => if number = 0 then .word 0 else s.hard number

namespace Instr

def isPlain (instr : Instr) : Bool :=
  match instr.code with
  | .setcc _ => false
  | .conditional _ => false
  | .sethi => false
  | code => (code.isRemovable || code = .sdiv) && !code.isLoad && !instr.isFCopy

/-- Bit 12 of an immediate count makes the shift one of 64 bits. -/
def isLongShift (instr : Instr) : Bool :=
  match instr.code, instr.format with
  | .sll, .format5 _ _ simm13 | .srl, .format5 _ _ simm13 | .sra, .format5 _ _ simm13 =>
      simm13.value.getLsbD 12
  | _, _ => false

def value (instr : Instr) (s : Store m) : Option Value :=
  match instr.format with
  | .format2 _ imm22 =>
      if instr.code = .sethi then some (.word imm22.high.value) else none
  | .format4 _ src1 src2 =>
      if instr.code.isLoad then some (m.load instr.code s.memory (s.read src1) (s.read src2))
      else none
  | .format5 _ src simm13 =>
      if instr.code.isLoad then
        some (m.load instr.code s.memory (s.read src) (.word simm13.value))
      else if instr.isPlain && !instr.isLongShift then
        some (m.alu instr.code (s.read src) (.word simm13.value))
      else none
  | .format6 _ src1 src2 =>
      if instr.isFCopy then some (s.read src2)
      else if instr.isPlain then some (m.alu instr.code (s.read src1) (s.read src2))
      else none
  | _ => none

def span (v : Var) : List Nat :=
  if v.type = .double then [v.number, v.number + 1] else [v.number]

def writes (instr : Instr) : List Nat :=
  match instr.format with
  | .call rets => rets.flatMap span
  | _ =>
      match instr.destReg with
      | some (.var dst) => if instr.code = .ldd then [dst.number, dst.number + 1] else span dst
      | _ => []

end Instr

/-! Value numbers and values. -/

structure Loaded where
  code : Opcode
  vn : Nat
  base : Value
  offset : Value

/-- A right-hand side says how the value of its number comes about. -/
def Known (m : Machine) (values : Nat → Value) (r : Rhs) : Prop :=
  match r.field with
  | .const value => values r.vn = .word value
  | .undef _ => True
  | .binary code op1 op2 => op1 < r.vn ∧ op2 < r.vn ∧
      (code.isLoad = false → values r.vn = m.alu code (values op1) (values op2))

theorem Known.congr {values values' : Nat → Value} {r : Rhs} (known : Known m values r)
    {bound : Nat} (below : r.vn < bound) (agrees : ∀ n < bound, values' n = values n) :
    Known m values' r := by
  unfold Known at known ⊢
  cases hfield : r.field with
  | const value =>
      simp only [hfield] at known ⊢
      rw [agrees _ below, known]
  | undef number => trivial
  | binary code op1 op2 =>
      simp only [hfield] at known ⊢
      obtain ⟨first, second, equal⟩ := known
      refine ⟨first, second, fun plain => ?_⟩
      rw [agrees _ below, agrees _ (Nat.lt_trans first below), agrees _ (Nat.lt_trans second below)]
      exact equal plain

def Available (values : Nat → Value) (loads : List Loaded) (s : Store m) (r : Rhs) : Prop :=
  ∀ code op1 op2, r.field = .binary code op1 op2 → code.isLoad = true →
    ⟨code, r.vn, values op1, values op2⟩ ∈ loads ∧
      values r.vn = m.load code s.memory (values op1) (values op2)

structure Named (m : Machine) (currentVn : Nat) (values : Nat → Value) (r : Rhs) (x : Value) :
    Prop where
  below : r.vn < currentVn
  known : Known m values r
  value : values r.vn = x

def Stands (m : Machine) (st : Numbering) (values : Nat → Value) (vn : Nat) (x : Value) : Prop :=
  ∃ r, st.rhsOf vn = some r ∧ r.vn = vn ∧ Named m st.currentVn values r x

structure Right (st : Numbering) (values : Nat → Value) (loads : List Loaded) (s : Store m) :
    Prop where
  map : ∀ k vn, st.map k = some vn → Stands m st values vn (s.vars k)
  table : ∀ r ∈ st.table, st.rhsOf r.vn = some r ∧ Named m st.currentVn values r (values r.vn) ∧
    Available values loads s r
  stack : ∀ cond ∈ st.stack, Named m st.currentVn values cond.1 (values cond.1.vn) ∧
    Named m st.currentVn values cond.2 (values cond.2.vn)
  compared : ∀ left right, s.compared = some (left, right) →
    (∃ r, st.prevLeft = some r ∧ Named m st.currentVn values r left) ∧
      ∃ r, st.prevRight = some r ∧ Named m st.currentVn values r right

structure Grows (st next : Numbering) (values values' : Nat → Value) : Prop where
  le : st.currentVn ≤ next.currentVn
  agrees : ∀ n < st.currentVn, values' n = values n
  rhsOf : ∀ n < st.currentVn, next.rhsOf n = st.rhsOf n

section

variable {st next : Numbering} {values values' : Nat → Value} {loads : List Loaded} {s : Store m}

theorem Grows.refl (st : Numbering) (values : Nat → Value) : Grows st st values values :=
  ⟨Nat.le_refl _, fun _ _ => rfl, fun _ _ => rfl⟩

theorem Grows.of_eq (currentVn : next.currentVn = st.currentVn) (rhsOf : next.rhsOf = st.rhsOf) :
    Grows st next values values :=
  ⟨Nat.le_of_eq currentVn.symm, fun _ _ => rfl, fun _ _ => by rw [rhsOf]⟩

theorem Grows.trans {last : Numbering} {values'' : Nat → Value}
    (first : Grows st next values values') (second : Grows next last values' values'') :
    Grows st last values values'' where
  le := Nat.le_trans first.le second.le
  agrees := fun n below =>
    (second.agrees n (Nat.lt_of_lt_of_le below first.le)).trans (first.agrees n below)
  rhsOf := fun n below =>
    (second.rhsOf n (Nat.lt_of_lt_of_le below first.le)).trans (first.rhsOf n below)

theorem Named.grow {r : Rhs} {x : Value} (named : Named m st.currentVn values r x)
    (grows : Grows st next values values') : Named m next.currentVn values' r x where
  below := Nat.lt_of_lt_of_le named.below grows.le
  known := named.known.congr named.below grows.agrees
  value := (grows.agrees _ named.below).trans named.value

theorem Named.self {r : Rhs} {x : Value} (named : Named m st.currentVn values r x) :
    Named m st.currentVn values r (values r.vn) :=
  ⟨named.below, named.known, rfl⟩

theorem Stands.below {vn : Nat} {x : Value} (stands : Stands m st values vn x) :
    vn < st.currentVn := by
  obtain ⟨r, _, rfl, named⟩ := stands
  exact named.below

theorem Stands.value {vn : Nat} {x : Value} (stands : Stands m st values vn x) :
    values vn = x := by
  obtain ⟨r, _, rfl, named⟩ := stands
  exact named.value

theorem Stands.grow {vn : Nat} {x : Value} (stands : Stands m st values vn x)
    (grows : Grows st next values values') : Stands m next values' vn x := by
  have below := stands.below
  obtain ⟨r, known, equal, named⟩ := stands
  exact ⟨r, (grows.rhsOf vn below).trans known, equal, named.grow grows⟩

theorem Available.grow {r : Rhs} (available : Available values loads s r)
    (named : Named m st.currentVn values r (values r.vn)) (grows : Grows st next values values') :
    Available values' loads s r := by
  intro code op1 op2 field isLoad
  have known := named.known
  simp only [Known, field] at known
  have below := named.below
  rw [grows.agrees _ below, grows.agrees op1 (by omega), grows.agrees op2 (by omega)]
  exact available code op1 op2 field isLoad

structure Extended (loads : List Loaded) (s : Store m) (st next : Numbering)
    (values values' : Nat → Value) : Prop where
  grows : Grows st next values values'
  right : Right next values' loads s
  checks : next.checks = st.checks

def Gives (loads : List Loaded) (s : Store m) (st : Numbering) (values : Nat → Value)
    (result : Nat × Numbering) (x : Value) : Prop :=
  ∃ values', Extended loads s st result.2 values values' ∧ Stands m result.2 values' result.1 x

theorem Extended.refl (right : Right st values loads s) :
    Extended loads s st st values values :=
  ⟨.refl st values, right, rfl⟩

theorem Extended.trans {last : Numbering} {values'' : Nat → Value}
    (first : Extended loads s st next values values')
    (second : Extended loads s next last values' values'') :
    Extended loads s st last values values'' :=
  ⟨first.grows.trans second.grows, second.right, second.checks.trans first.checks⟩

theorem Right.carry {loads' : List Loaded} {s' : Store m} (right : Right st values loads s)
    (grows : Grows st next values values')
    (map : ∀ k vn, next.map k = some vn → st.map k = some vn ∧ s'.vars k = s.vars k)
    (table : ∀ r ∈ next.table, r ∈ st.table)
    (available : ∀ r ∈ next.table, Available values' loads s r → Available values' loads' s' r)
    (stack : ∀ cond ∈ next.stack, cond ∈ st.stack)
    (compared : s'.compared = none ∨ (s'.compared = s.compared ∧
      next.prevLeft = st.prevLeft ∧ next.prevRight = st.prevRight)) :
    Right next values' loads' s' := by
  refine ⟨?_, ?_, ?_, ?_⟩
  · intro k vn known
    obtain ⟨before, same⟩ := map k vn known
    rw [same]
    exact (right.map k vn before).grow grows
  · intro r member
    obtain ⟨known, named, loaded⟩ := right.table r (table r member)
    exact ⟨(grows.rhsOf _ named.below).trans known, (named.grow grows).self,
      available r member (loaded.grow named grows)⟩
  · intro cond member
    obtain ⟨first, second⟩ := right.stack cond (stack cond member)
    exact ⟨(first.grow grows).self, (second.grow grows).self⟩
  · intro left right' equal
    rcases compared with none | ⟨same, sameLeft, sameRight⟩
    · rw [none] at equal
      contradiction
    · rw [same] at equal
      rw [sameLeft, sameRight]
      obtain ⟨⟨r, first, named⟩, r', second, named'⟩ := right.compared left right' equal
      exact ⟨⟨r, first, named.grow grows⟩, r', second, named'.grow grows⟩

theorem Right.skip (right : Right st values loads s) {currentVn : Nat}
    (le : st.currentVn ≤ currentVn) (currentUndef : Nat) :
    Extended loads s st { st with currentVn := currentVn, currentUndef := currentUndef }
      values values := by
  have grows : Grows st { st with currentVn := currentVn, currentUndef := currentUndef }
      values values := ⟨le, fun _ _ => rfl, fun _ _ => rfl⟩
  exact ⟨grows, right.carry grows (fun _ _ known => ⟨known, rfl⟩) (fun _ member => member)
    (fun _ _ available => available) (fun _ member => member) (.inr ⟨rfl, rfl, rfl⟩), rfl⟩

theorem Right.register (right : Right st values loads s) {field : RhsField}
    {source : Option Instr} {x : Value}
    (known : Known m (Function.update values st.currentVn x) ⟨field, st.currentVn, source, 0⟩)
    (available : Available (Function.update values st.currentVn x) loads s
      ⟨field, st.currentVn, source, 0⟩) :
    Gives loads s st values (st.register field source) x := by
  have grows : Grows st (st.register field source).2 values
      (Function.update values st.currentVn x) := by
    refine ⟨Nat.le_succ _, fun n below => ?_, fun n below => ?_⟩
    · exact Function.update_of_ne (Nat.ne_of_lt below) _ _
    · exact Function.update_of_ne (Nat.ne_of_lt below) _ _
  have own : (st.register field source).2.rhsOf st.currentVn =
      some ⟨field, st.currentVn, source, 0⟩ := Function.update_self _ _ _
  have named : Named m (st.register field source).2.currentVn
      (Function.update values st.currentVn x)
      ⟨field, st.currentVn, source, 0⟩ x :=
    ⟨Nat.lt_succ_self _, known, Function.update_self _ _ _⟩
  refine ⟨_, ⟨grows, ⟨?_, ?_, ?_, ?_⟩, rfl⟩, _, own, rfl, named⟩
  · exact fun k vn known => (right.map k vn known).grow grows
  · intro r member
    rcases List.mem_cons.mp member with rfl | member
    · exact ⟨own, named.self, available⟩
    · obtain ⟨known, named, available⟩ := right.table r member
      exact ⟨(grows.rhsOf _ named.below).trans known, (named.grow grows).self,
        available.grow named grows⟩
  · intro cond member
    obtain ⟨first, second⟩ := right.stack cond member
    exact ⟨(first.grow grows).self, (second.grow grows).self⟩
  · intro left right' equal
    obtain ⟨⟨r, first, named⟩, r', second, named'⟩ := right.compared left right' equal
    exact ⟨⟨r, first, named.grow grows⟩, r', second, named'.grow grows⟩

theorem Right.createUndef (right : Right st values loads s) (x : Value) :
    Gives loads s st values st.createUndef x := by
  have skipped := right.skip (Nat.le_refl _) (st.currentUndef + 1)
  have registered : Gives loads s _ values st.createUndef x :=
    skipped.right.register trivial (fun _ _ _ absurd => nomatch absurd)
  obtain ⟨values', extended, stands⟩ := registered
  exact ⟨values', skipped.trans extended, stands⟩

theorem find_eq_some {field : RhsField} {r : Rhs} (found : st.find field = some r)
    (notUndef : ∀ number, field ≠ .undef number) : r ∈ st.table ∧ r.field = field := by
  have equal := List.find?_some found
  refine ⟨List.mem_of_find?_eq_some found, ?_⟩
  unfold Rhs.isEqual at equal
  cases field with
  | undef number => exact absurd rfl (notUndef number)
  | const value =>
      cases hfield : r.field <;> simp_all
  | binary code op1 op2 =>
      cases hfield : r.field <;> simp_all

theorem Right.fromConst (right : Right st values loads s) (value : BitVec 32) :
    Gives loads s st values (st.fromConst value) (.word value) := by
  unfold Numbering.fromConst
  cases found : st.find (.const value) with
  | some r =>
      obtain ⟨member, field⟩ := find_eq_some found (fun _ absurd => nomatch absurd)
      obtain ⟨known, named, _⟩ := right.table r member
      have equal := named.known
      simp only [Known, field] at equal
      exact ⟨values, .refl right, r, known, rfl, named.below, named.known, equal⟩
  | none =>
      exact right.register (Function.update_self _ _ _) (fun _ _ _ absurd => nomatch absurd)

theorem Right.insert (right : Right st values loads s) {vn : Nat} {v : Var}
    (stands : Stands m st values vn (s.vars v.number)) :
    Extended loads s st (st.insert (.var v) vn) values values := by
  have grows : Grows st (st.insert (.var v) vn) values values := .of_eq rfl rfl
  refine ⟨grows, ⟨?_, right.table, right.stack, right.compared⟩, rfl⟩
  intro k vn' known
  by_cases same : k = v.number
  · rw [same, st.insert_map_self, Option.some.injEq] at known
    rw [same, ← known]
    exact stands.grow grows
  · rw [st.insert_map_other same] at known
    exact (right.map k vn' known).grow grows

theorem fromVar_known {v : Var} {vn : Nat} (known : st.map v.number = some vn) :
    st.fromVar (.var v) = (vn, st) := by
  simp only [Numbering.fromVar, known]

theorem fromVar_unknown {v : Var} (unknown : st.map v.number = none) :
    st.fromVar (.var v) =
      (st.createUndef.1, st.createUndef.2.insert (.var v) st.createUndef.1) := by
  simp only [Numbering.fromVar, unknown]

/-- The register is a variable or `g0`. -/
def Ordinary (reg : Reg) : Prop :=
  reg = g0 ∨ ∃ v, reg = .var v

theorem Right.fromVar (right : Right st values loads s) {reg : Reg} (ordinary : Ordinary reg) :
    Gives loads s st values (st.fromVar reg) (s.read reg) := by
  rcases ordinary with rfl | ⟨v, rfl⟩
  · exact right.fromConst 0
  · cases known : st.map v.number with
    | some vn =>
        rw [fromVar_known known]
        exact ⟨values, .refl right, right.map _ _ known⟩
    | none =>
        rw [fromVar_unknown known]
        obtain ⟨values', extended, stands⟩ := right.createUndef (s.vars v.number)
        have inserted := extended.right.insert stands
        exact ⟨values', extended.trans inserted, stands.grow inserted.grows⟩

theorem Right.fromImm (right : Right st values loads s) (imm : Imm) :
    Gives loads s st values (st.fromImm imm) (.word imm.value) := by
  cases imm with
  | resolved value => exact right.fromConst value
  | unresolved value => exact right.createUndef _

theorem Right.fromAddress (right : Right st values loads s) (reg : Reg) :
    Gives loads s st values (st.fromAddress reg) (s.read reg) := by
  cases reg with
  | var v => exact right.fromVar (.inr ⟨v, rfl⟩)
  | hard number => exact right.createUndef _

theorem Right.fromOffset (right : Right st values loads s) (reg : Reg) :
    Gives loads s st values (st.fromOffset reg) (s.read reg) := by
  unfold Numbering.fromOffset
  split
  · rename_i zero
    rw [zero]
    exact right.fromConst 0
  · exact right.fromAddress reg

end

end LaTTe.Translator.Vn
