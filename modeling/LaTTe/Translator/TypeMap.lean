import LaTTe.Translator.FlowGraph
import LaTTe.Classes.Run
import Mathlib.Logic.Function.Basic

namespace LaTTe.Translator

open LaTTe.Classes

/-! The map from variables to types, and what one instruction does to it. -/

abbrev TypeMap := Nat → Option Nat

namespace TypeMap

/-- `MV2TV_Put`. -/
def put (map : TypeMap) (key : Var) (value : Option Nat) : TypeMap :=
  if key.type = .double then
    Function.update (Function.update map key.number value) (key.number + 1) none
  else
    Function.update map key.number value

def Below (map other : TypeMap) : Prop :=
  ∀ v type, map v = some type → other v = some type

def Holds (map : TypeMap) (vars : Nat → Value) : Prop :=
  ∀ v type, map v = some type → (vars v).IsObject type

variable {map other : TypeMap} {vars : Nat → Value}

theorem Below.refl (map : TypeMap) : map.Below map :=
  fun _ _ typed => typed

theorem Below.trans {last : TypeMap} (first : map.Below other) (second : other.Below last) :
    map.Below last :=
  fun v type typed => second v type (first v type typed)

theorem Holds.below (holds : other.Holds vars) (below : map.Below other) : map.Holds vars :=
  fun v type typed => holds v type (below v type typed)

theorem Holds.reference (holds : map.Holds vars) {v type : Nat} (typed : map v = some type) :
    (vars v).isReference = true := by
  obtain ⟨identity, equal⟩ := holds v type typed
  rw [equal]
  rfl

theorem of_put {key : Var} {value : Option Nat} {v type : Nat}
    (typed : map.put key value v = some type) :
    (v = key.number ∧ value = some type) ∨
      (v ∉ (if key.type = .double then [key.number, key.number + 1] else [key.number]) ∧
        map v = some type) := by
  unfold put at typed
  by_cases isDouble : key.type = .double
  · rw [if_pos isDouble] at typed ⊢
    by_cases upper : v = key.number + 1
    · rw [upper, Function.update_self] at typed
      contradiction
    · rw [Function.update_of_ne upper] at typed
      by_cases lower : v = key.number
      · rw [lower, Function.update_self] at typed
        exact .inl ⟨lower, typed⟩
      · rw [Function.update_of_ne lower] at typed
        exact .inr ⟨by simp [lower, upper], typed⟩
  · rw [if_neg isDouble] at typed ⊢
    by_cases lower : v = key.number
    · rw [lower, Function.update_self] at typed
      exact .inl ⟨lower, typed⟩
    · rw [Function.update_of_ne lower] at typed
      exact .inr ⟨by simp [lower], typed⟩

end TypeMap

namespace InstrNode

variable (instr : InstrNode)

/-- `TA_type_analysis_core`, as far as the map is concerned. -/
def typeAnalysisCore (map : TypeMap) : TypeMap :=
  if instr.isNop then map
  else
    match instr.semanticDst with
    | .none => map
    | .one (.hard _) => map
    | .one (.var dst) =>
        match instr.copySource with
        | some (.var src) => map.put dst (map src.number)
        | some (.hard _) => map
        | none => map.put dst instr.myTypedValue
    | .two first second => (map.put first none).put second none

def copiesRegister : Bool :=
  match instr.semanticDst, instr.copySource with
  | .one (.var _), some (.hard _) => true
  | _, _ => false

variable {instr}

theorem semanticDst_of_isNop (nop : instr.isNop = true) : instr.semanticDst = .one g0 := by
  unfold isNop at nop
  unfold semanticDst
  cases hop : instr.operation <;> simp_all

theorem writes_of_one {dst : Var} (single : instr.semanticDst = .one (.var dst)) :
    instr.writes =
      if dst.type = .double then [dst.number, dst.number + 1] else [dst.number] := by
  rw [writes, single]

/-- Where the types of the map come from. -/
theorem typed_of_core {map : TypeMap} {v type : Nat}
    (typed : instr.typeAnalysisCore map v = some type) :
    (v ∉ instr.writes ∧ map v = some type) ∨
      (instr.copiesRegister = true ∧ map v = some type) ∨
      ∃ dst, instr.semanticDst = .one (.var dst) ∧ v = dst.number ∧
        ((∃ src, instr.copySource = some (.var src) ∧ map src.number = some type) ∨
          instr.copySource = none ∧ instr.myTypedValue = some type) := by
  unfold typeAnalysisCore at typed
  split at typed
  · rename_i nop
    rw [writes, semanticDst_of_isNop nop]
    exact .inl ⟨by simp [g0], typed⟩
  · cases single : instr.semanticDst with
    | none =>
        simp only [single] at typed
        exact .inl ⟨by simp [writes, single], typed⟩
    | one reg =>
        cases reg with
        | hard number =>
            simp only [single] at typed
            exact .inl ⟨by simp [writes, single], typed⟩
        | var dst =>
            simp only [single] at typed
            cases source : instr.copySource with
            | none =>
                simp only [source] at typed
                rcases TypeMap.of_put typed with ⟨equal, value⟩ | ⟨apart, typed⟩
                · exact .inr (.inr ⟨dst, rfl, equal, .inr ⟨rfl, value⟩⟩)
                · exact .inl ⟨by rwa [writes_of_one single], typed⟩
            | some reg =>
                cases reg with
                | hard number =>
                    simp only [source] at typed
                    exact .inr (.inl ⟨by simp [copiesRegister, single, source], typed⟩)
                | var src =>
                    simp only [source] at typed
                    rcases TypeMap.of_put typed with ⟨equal, value⟩ | ⟨apart, typed⟩
                    · exact .inr (.inr ⟨dst, rfl, equal, .inl ⟨src, rfl, value⟩⟩)
                    · exact .inl ⟨by rwa [writes_of_one single], typed⟩
    | two first second =>
        simp only [single] at typed
        rcases TypeMap.of_put typed with ⟨_, absurd⟩ | ⟨apart, typed⟩
        · contradiction
        · rcases TypeMap.of_put typed with ⟨_, absurd⟩ | ⟨apart', typed⟩
          · contradiction
          · refine .inl ⟨?_, typed⟩
            have far : ∀ {key : Var}, v ∉ (if key.type = .double then
                [key.number, key.number + 1] else [key.number]) → v ≠ key.number := by
              intro key outside
              rintro rfl
              apply outside
              split <;> simp
            simp [writes, single, far apart, far apart']

def Overlooks (instr : InstrNode) (vars : Nat → Value) : Prop :=
  instr.copiesRegister = true ∧ ∃ v ∈ instr.writes, (vars v).isReference = true

theorem core_holds {map : TypeMap} {before after : Nat → Value} (holds : map.Holds before)
    (executes : Executes instr before after) (regards : ¬ instr.Overlooks before) :
    (instr.typeAnalysisCore map).Holds after := by
  intro v type typed
  rcases typed_of_core typed with ⟨outside, typed⟩ | ⟨copies, typed⟩ | ⟨dst, single, rfl, value⟩
  · rw [executes.frame v outside]
    exact holds v type typed
  · have outside : v ∉ instr.writes := fun inside =>
      regards ⟨copies, v, inside, holds.reference typed⟩
    rw [executes.frame v outside]
    exact holds v type typed
  · rcases value with ⟨src, source, typed⟩ | ⟨source, typed⟩
    · rw [executes.moved dst src single (instr.moved_of_copySource source)]
      exact holds src.number type typed
    · exact executes.typed dst type single source typed

theorem defines_of_core {map : TypeMap} {v type : Nat}
    (typed : instr.typeAnalysisCore map v = some type) :
    map v = some type ∨ v ∈ instr.writes ∧ instr.increments v = false := by
  by_cases before : map v = some type
  · exact .inl before
  rcases typed_of_core typed with ⟨_, typed⟩ | ⟨_, typed⟩ | ⟨dst, single, rfl, value⟩
  · exact absurd typed before
  · exact absurd typed before
  · refine .inr ⟨?_, ?_⟩
    · rw [writes_of_one single]
      split <;> simp
    · refine Bool.eq_false_iff.mpr fun increments => ?_
      unfold InstrNode.increments at increments
      split at increments
      · rename_i dst' src simm13 hop
        simp only [Bool.and_eq_true, decide_eq_true_eq] at increments
        obtain ⟨⟨_, own⟩, plain⟩ := increments
        rcases value with ⟨src', source, typed⟩ | ⟨_, typed⟩
        · -- a variable that is copied to itself keeps what it had
          simp only [copySource, hop] at source
          split at source
          · obtain rfl : src = src' := by injection Option.some.inj source
            rw [own] at typed
            exact absurd typed before
          · contradiction
        · rw [plain] at typed
          contradiction
      · contradiction

end InstrNode

/-! Maps that meet and the map to start with. -/

def mergeAtJoin (old new : TypeMap) : TypeMap := fun v =>
  match old v with
  | none => none
  | some type => if new v = some type then some type else none

theorem mergeAtJoin_eq_some {old new : TypeMap} {v type : Nat} :
    mergeAtJoin old new v = some type ↔ old v = some type ∧ new v = some type := by
  unfold mergeAtJoin
  cases typed : old v with
  | none => simp
  | some first =>
      constructor
      · intro merged
        simp only [Option.ite_none_right_eq_some] at merged
        obtain ⟨same, equal⟩ := merged
        exact ⟨equal, same.trans equal⟩
      · intro ⟨equal, same⟩
        obtain rfl : first = type := Option.some.inj equal
        simp [same]

theorem mergeAtJoin_old (old new : TypeMap) : (mergeAtJoin old new).Below old :=
  fun _ _ typed => (mergeAtJoin_eq_some.mp typed).1

theorem mergeAtJoin_new (old new : TypeMap) : (mergeAtJoin old new).Below new :=
  fun _ _ typed => (mergeAtJoin_eq_some.mp typed).2

namespace FlowGraph

variable (g : FlowGraph)

/-- `TA_make_init_map_from_ArgSet`. -/
def makeInitMap : TypeMap := fun v =>
  if g.argOffset ≤ v then g.argSet.getD (v - g.argOffset) none else none

/-- `TA_local_var_analysis`: the locals with one definition that have a type. -/
def localVarAnalysis (map : TypeMap) : TypeMap := fun v =>
  if g.localOffset ≤ v ∧ v < g.localOffset + g.localSize ∧ g.numOfDefs (v - g.localOffset) = 1 then
    map v
  else none

theorem localVarAnalysis_eq_some {map : TypeMap} {v type : Nat}
    (typed : g.localVarAnalysis map v = some type) :
    ∃ i < g.localSize, v = g.localOffset + i ∧ g.numOfDefs i = 1 ∧ map v = some type := by
  unfold localVarAnalysis at typed
  split at typed
  · rename_i bounds
    exact ⟨v - g.localOffset, by omega, by omega, bounds.2.2, typed⟩
  · contradiction

end FlowGraph

/-! The calls. -/

/-- What becomes of a call: nothing is generated, or a sequence that calls `callee`,
which is the method to be called when `resolved`. -/
inductive Generation where
  | bypass
  | generate (callee : Method) (receiverType : Option Nat) (needNullCheck resolved : Bool)
  deriving DecidableEq, Repr

/-- The method at an index of the tables of the receiver's class, when it has the name
and the signature of the one called.  `none` stands for a null pointer that is followed. -/
def resolveAt (vm : Vm) (callee : Method) (type : Nat) (index : Int) : Option Generation :=
  match vm.methodsInDtable type index with
  | none => none
  | some method =>
      if callee.name = method.name ∧ callee.signature = method.signature then
        some (.generate method (some type) false true)
      else some .bypass

/-- The decision of `TA_type_analysis_core` about a call whose receiver has the typed
value `tv`. -/
def resolveInvoke (vm : Vm) (type : InvokeType) (callee : Method) (finalOrPrivate : Bool)
    (tv : Option Nat) : Option Generation :=
  match type with
  | .virtual =>
      match tv with
      | some receiver =>
          if vm.msize receiver ≤ vm.idx callee then some .bypass
          else resolveAt vm callee receiver (vm.idx callee)
      | none => some (.generate callee none true finalOrPrivate)
  | .special => some (.generate callee tv tv.isNone true)
  | .static => some (.generate callee none false true)
  | .interface =>
      match tv with
      | some receiver =>
          if vm.itSize receiver < vm.iidx callee then some .bypass
          else resolveAt vm callee receiver (-vm.iidx callee)
      | none => some (.generate callee none true finalOrPrivate)

/-- `Instr_GetReceiverReferenceVariable` and its typed value. -/
def FuncInfo.receiverType (info : FuncInfo) (map : TypeMap) : Option Nat :=
  info.argVars.head?.bind fun receiver => map receiver.number

theorem resolveAt_eq_generate {vm : Vm} {callee target : Method} {type : Nat} {index : Int}
    {receiverType : Option Nat} {needNullCheck resolved : Bool}
    (decision : resolveAt vm callee type index =
      some (.generate target receiverType needNullCheck resolved)) :
    vm.methodsInDtable type index = some target := by
  unfold resolveAt at decision
  cases entry : vm.methodsInDtable type index with
  | none =>
      simp only [entry] at decision
      contradiction
  | some method =>
      simp only [entry] at decision
      split at decision
      · obtain ⟨rfl, _⟩ := Generation.generate.inj (Option.some.inj decision)
        rfl
      · cases decision

def Reaches (h : Hierarchy) (vm : Vm) (type : Nat) (callee target : Method) (slot : Int) : Prop :=
  h.findMethod type callee.name callee.signature = some target ∧
    Enters vm (vm.dtable type slot) target

variable {h : Hierarchy} {vm : Vm} {count : Nat}

theorem resolveInvoke_virtual (prepared : Prepared h count vm) {type : Nat} (earlier : type < count)
    (isClass : h.isInterface type = false) {callee target : Method}
    (visible : h.Virtual type callee) {finalOrPrivate resolved : Bool}
    {receiverType : Option Nat}
    (decision : resolveInvoke vm .virtual callee finalOrPrivate (some type) =
      some (.generate target receiverType false resolved)) :
    Reaches h vm type callee target (methodWord (vm.idx callee)) := by
  simp only [resolveInvoke] at decision
  split at decision
  · cases decision
  · obtain ⟨found, result, entry, enters⟩ :=
      prepared.virtual_entry earlier isClass visible
    rw [resolveAt_eq_generate decision] at entry
    obtain rfl : target = found := Option.some.inj entry
    exact ⟨result, enters⟩

theorem resolveInvoke_interface (prepared : Prepared h count vm) {type : Nat}
    (earlier : type < count) (isClass : h.isInterface type = false) {callee target found : Method}
    {i : Nat} (implementation : h.Implements type i) (member : callee ∈ h.methods i)
    (named : callee.name ≠ initName)
    (result : h.findMethod type callee.name callee.signature = some found)
    (isVirtual : found.isVirtual = true) {finalOrPrivate resolved : Bool}
    {receiverType : Option Nat}
    (decision : resolveInvoke vm .interface callee finalOrPrivate (some type) =
      some (.generate target receiverType false resolved)) :
    Reaches h vm type callee target (-vm.iidx callee) := by
  simp only [resolveInvoke] at decision
  split at decision
  · cases decision
  · obtain ⟨entry, enters⟩ := prepared.slot_found earlier isClass implementation member named
      result isVirtual
    rw [resolveAt_eq_generate decision] at entry
    obtain rfl : target = found := Option.some.inj entry
    exact ⟨result, enters⟩

end LaTTe.Translator
