import LaTTe.Translator.TypeAnalysis

namespace LaTTe.Translator

open LaTTe.Data LaTTe.Classes

/-! The types of the analysis against the runs of the graph. -/

/-- A flow graph as it is handed to the analysis: no branch goes back to the prologue,
and a local whose count is one has one definition, be it an argument of known type or an
instruction. -/
structure GeneratedGraph extends FlowGraph where
  entered : ∀ p < nodes.length, head ∉ toFlowGraph.succs p
  counted : ∀ i < localSize, numOfDefs i = 1 →
    (toFlowGraph.definitions (localOffset + i)).length +
      (toFlowGraph.makeInitMap (localOffset + i)).toList.length ≤ 1

namespace GeneratedGraph

variable (g : GeneratedGraph)

def Starts (s : State) : Prop :=
  s.next = g.head ∧ g.makeInitMap.Holds s.vars

def CarefulStep (before after : State) : Prop :=
  g.Step before after ∧ ¬ (g.node before.next).Overlooks before.vars

theorem head_not_succ (p : Nat) : g.head ∉ g.succs p :=
  fun member => g.entered p (FlowGraph.lt_of_mem_succs member) member

theorem one_definition {i n k : Nat} (isLocal : i < g.localSize) (once : g.numOfDefs i = 1)
    (defines : g.Defines n (g.localOffset + i)) (defines' : g.Defines k (g.localOffset + i)) :
    n = k :=
  eq_of_length_le_one (Nat.le_trans (Nat.le_add_right _ _) (g.counted i isLocal once))
    (FlowGraph.mem_definitions.mpr defines) (FlowGraph.mem_definitions.mpr defines')

theorem argument_definition {i n type : Nat} (isLocal : i < g.localSize)
    (once : g.numOfDefs i = 1) (argument : g.makeInitMap (g.localOffset + i) = some type) :
    ¬ g.Defines n (g.localOffset + i) := by
  intro defines
  have counted := g.counted i isLocal once
  have positive := List.length_pos_of_mem (FlowGraph.mem_definitions.mpr defines)
  rw [argument, Option.toList_some, List.length_singleton] at counted
  omega

theorem head_not_end : g.isRegionEnd g.head = false := by
  have none : g.preds g.head = [] := by
    refine List.eq_nil_iff_forall_not_mem.mpr fun p isPred => ?_
    exact g.head_not_succ p (g.mem_preds.mp isPred)
  rw [FlowGraph.isRegionEnd, none]
  rfl

end GeneratedGraph

structure Sound (st : Analysis) (block : List Nat) (s : State) : Prop where
  maps : ∀ map, (s.next, map) ∈ st.visited → map.Holds s.vars
  localVars : s.next ∈ block ∨ ∀ map, st.localVars = some map → map.Holds s.vars

section

variable {g : GeneratedGraph} {st : Analysis} {block : List Nat} {last : Nat × TypeMap}

theorem Sound.start (analysed : Analysed g.toFlowGraph st)
    (first : FirstBlock g.toFlowGraph g.head g.makeInitMap st block last) {s : State}
    (starts : g.Starts s) : Sound st block s := by
  obtain ⟨atHead, holds⟩ := starts
  refine ⟨?_, .inl (by rw [atHead]; exact first.start_mem)⟩
  intro map visited
  rw [atHead] at visited
  cases analysed.sourced _ visited with
  | head equal =>
      rw [(Prod.mk.inj equal).2]
      exact holds
  | inner before _ _ flows => exact absurd flows.1 (g.head_not_succ before.1)
  | localVars isEnd _ =>
      rw [g.head_not_end] at isEnd
      contradiction
  | join isEnd _ =>
      rw [g.head_not_end] at isEnd
      contradiction

theorem localVars_step (first : FirstBlock g.toFlowGraph g.head g.makeInitMap st block last)
    {before after : State} (executes : Executes (g.node before.next) before.vars after.vars)
    (outside : before.next ∉ block) {map : TypeMap} (known : st.localVars = some map)
    (holds : map.Holds before.vars) : map.Holds after.vars := by
  intro v type typed
  have reference := holds.reference typed
  have frozen : v ∉ (g.node before.next).writes := by
    intro writes
    cases increments : (g.node before.next).increments v with
    | true =>
        rw [(executes.incremented v increments).1] at reference
        contradiction
    | false =>
        have defines : g.Defines before.next v := ⟨writes, increments⟩
        rw [first.localVars map known] at typed
        obtain ⟨i, isLocal, rfl, once, typed⟩ := g.localVarAnalysis_eq_some typed
        rcases first.typed _ _ typed with initially | ⟨n, inBlock, earlier⟩
        · exact g.argument_definition isLocal once initially defines
        · rw [g.one_definition isLocal once defines earlier] at outside
          exact outside inBlock
  rw [executes.frame v frozen]
  exact holds v type typed

theorem Sound.step (analysed : Analysed g.toFlowGraph st)
    (first : FirstBlock g.toFlowGraph g.head g.makeInitMap st block last) {before after : State}
    (sound : Sound st block before) (taken : g.CarefulStep before after) :
    Sound st block after := by
  obtain ⟨⟨isSucc, executes⟩, regards⟩ := taken
  have flows : ∀ map, (before.next, map) ∈ st.visited →
      (leaves g.toFlowGraph (before.next, map)).Holds after.vars :=
    fun map visited => InstrNode.core_holds (sound.maps map visited) executes regards
  have localVars : after.next ∈ block ∨
      ∀ map, st.localVars = some map → map.Holds after.vars := by
    by_cases inBlock : before.next ∈ block
    · by_cases atLast : before.next = last.1
      · -- the block is left, and its types are those of the locals
        refine .inr fun map known => ?_
        have visited := first.last_mem
        rw [← Prod.eta last, ← atLast] at visited
        refine (flows last.2 visited).below fun v type typed => ?_
        rw [first.localVars map known] at typed
        obtain ⟨_, _, _, _, typed⟩ := g.localVarAnalysis_eq_some typed
        rw [atLast]
        exact typed
      · exact .inl (first.closed _ inBlock atLast _ isSucc)
    · refine .inr fun map known => ?_
      rcases sound.localVars with absurd | holds
      · contradiction
      · exact localVars_step first executes inBlock known (holds map known)
  refine ⟨?_, localVars⟩
  intro map visited
  cases analysed.sourced _ visited with
  | head equal =>
      obtain ⟨atHead, _⟩ := Prod.mk.inj equal
      rw [atHead] at isSucc
      exact absurd isSucc (g.head_not_succ _)
  | inner pred single inVisited flow =>
      obtain ⟨p, map'⟩ := pred
      obtain ⟨isSucc', equal⟩ := flow
      obtain rfl : p = before.next := g.pred_unique single isSucc' isSucc
      obtain rfl : map = leaves g.toFlowGraph (before.next, map') := equal
      exact flows map' inVisited
  | localVars isEnd equal =>
      rcases localVars with inBlock | holds
      · rcases first.single _ inBlock with atHead | single
        · rw [atHead] at isSucc
          exact absurd isSucc (g.head_not_succ _)
        · rw [single] at isEnd
          contradiction
      · exact holds map equal
  | join _ covered =>
      obtain ⟨map', visited', below⟩ := covered before.next isSucc
      exact (flows map' visited').below below

end

/-- A call that the analysis turns into one of a fixed method, without a null check, has
an object for its receiver and reaches the method that is dispatched to. -/
def CallsRight (h : Hierarchy) (vm : Vm) (count : Nat) (instr : InstrNode) (map : TypeMap)
    (vars : Nat → Value) : Prop :=
  ∀ type callee finalOrPrivate info, instr.operation = .invoke type callee finalOrPrivate info →
  type = .virtual ∨ type = .interface →
  ∀ target receiverType resolved,
    resolveInvoke vm type callee finalOrPrivate (info.receiverType map) =
      some (.generate target receiverType false resolved) →
    ∃ receiver identity class_, info.argVars.head? = some receiver ∧
      vars receiver.number = .object identity class_ ∧
      (class_ < count → h.isInterface class_ = false →
        (type = .virtual → h.Virtual class_ callee →
          Reaches h vm class_ callee target (methodWord (vm.idx callee))) ∧
        (type = .interface → ∀ i, h.Implements class_ i → callee ∈ h.methods i →
          callee.name ≠ initName → ∀ found,
          h.findMethod class_ callee.name callee.signature = some found →
          found.isVirtual = true →
          Reaches h vm class_ callee target (-vm.iidx callee)))

theorem callsRight_of_holds {h : Hierarchy} {vm : Vm} {count : Nat}
    (prepared : Prepared h count vm) {instr : InstrNode} {map : TypeMap} {vars : Nat → Value}
    (holds : map.Holds vars) : CallsRight h vm count instr map vars := by
  intro type callee finalOrPrivate info _ isDynamic target receiverType resolved decision
  obtain ⟨class_, known⟩ : ∃ class_, info.receiverType map = some class_ := by
    cases typed : info.receiverType map with
    | some class_ => exact ⟨class_, rfl⟩
    | none =>
        rw [typed] at decision
        rcases isDynamic with rfl | rfl
        · simp [resolveInvoke] at decision
        · simp [resolveInvoke] at decision
  rw [known] at decision
  obtain ⟨receiver, first, typed⟩ := Option.bind_eq_some_iff.mp known
  obtain ⟨identity, value⟩ := holds receiver.number class_ typed
  refine ⟨receiver, identity, class_, first, value, fun earlier isClass => ⟨?_, ?_⟩⟩
  · rintro rfl visible
    exact resolveInvoke_virtual prepared earlier isClass visible decision
  · rintro rfl i implementation member named found result isVirtual
    exact resolveInvoke_interface prepared earlier isClass implementation member named result
      isVirtual decision

theorem types_hold_in_careful_runs (g : GeneratedGraph) (fuel : Nat) (st : Analysis)
    (run : typeAnalysis g.toFlowGraph fuel = some st) (h : Hierarchy) (text : Nat → BitVec 32)
    (count : Nat) (vm : Vm) (prepared : prepareAll h text count = some vm)
    (clash : ∀ c < count, h.isInterface c = false → h.NoClash c)
    (fits : ∀ c < count, h.isInterface c = false → h.tableSize c < 2 ^ 15)
    (s : State) (reached : Reachable g.Starts g.CarefulStep s) (map : TypeMap)
    (visited : (s.next, map) ∈ st.visited) :
    map.Holds s.vars ∧ CallsRight h vm count (g.node s.next) map s.vars := by
  have analysed := typeAnalysis_analysed g.head_not_end run
  obtain ⟨block, last, first⟩ := analysed.firstBlock
  have sound : Sound st block s :=
    reached.invariant (Sound st block) (fun _ starts => .start analysed first starts)
      (fun _ _ holds taken => holds.step analysed first taken)
  have holds := sound.maps map visited
  obtain ⟨vm', run', prepared'⟩ := prepareAll_prepared text clash fits
  obtain rfl : vm = vm' := Option.some.inj (prepared.symm.trans run')
  exact ⟨holds, callsRight_of_holds prepared' holds⟩

/-- `new; invokevirtual hashCode`, on an object of the class that implements an
interface in `runnable`. -/
def callOfNew : GeneratedGraph where
  nodes :=
    [ ⟨.operate (.hard 14), none, [1]⟩,
      ⟨.call ⟨[], [⟨0, .ref⟩]⟩, some 2, [2]⟩,
      ⟨.invoke .virtual ⟨0, "hashCode", "()I", false⟩ false ⟨[⟨0, .ref⟩], [⟨0, .int⟩]⟩, none, []⟩ ]
  head := 0
  argSet := []
  argOffset := 0
  localOffset := 0
  localSize := 0
  numOfDefs := fun _ => 0
  entered := by decide
  counted := by decide

/-- `new; pop; jsr L; L: astore_1`.  The entry of the finally block copies the return
address from `o7` to the variable that held the new object. -/
def finallyEntry : GeneratedGraph where
  nodes :=
    [ ⟨.operate (.hard 14), none, [1]⟩,
      ⟨.call ⟨[], [⟨2, .ref⟩]⟩, some 5, [2]⟩,
      ⟨.addRegisters g0 (.var ⟨2, .ref⟩) g0, none, [3]⟩,
      ⟨.addRegisters g0 g0 g0, none, [4]⟩,
      ⟨.addRegisters (.var ⟨2, .ref⟩) g0 (.hard 15), none, [5]⟩,
      ⟨.addRegisters (.var ⟨1, .ref⟩) (.var ⟨2, .ref⟩) g0, none, []⟩ ]
  head := 0
  argSet := []
  argOffset := 0
  localOffset := 0
  localSize := 2
  numOfDefs := fun i => if i = 1 then 1 else 0
  entered := by decide
  counted := by decide

theorem Executes.idle {instr : InstrNode} (nothing : instr.writes = [])
    (steady : ∀ v, instr.increments v = false) (vars : Nat → Value) :
    Executes instr vars vars := by
  have noDst : ∀ dst, instr.semanticDst ≠ .one (.var dst) := by
    intro dst single
    rw [InstrNode.writes_of_one single] at nothing
    split at nothing <;> contradiction
  refine ⟨fun _ _ => rfl, ?_, ?_, ?_⟩
  · exact fun dst _ single => absurd single (noDst dst)
  · exact fun dst _ single => absurd single (noDst dst)
  · intro v increments
    rw [steady v] at increments
    contradiction

theorem Executes.assign (instr : InstrNode) (dst : Var)
    (single : instr.semanticDst = .one (.var dst)) (plain : dst.type ≠ .double)
    (steady : ∀ v, instr.increments v = false)
    (notMoved : ∀ src, instr.moved ≠ some (.var src)) (vars : Nat → Value) {value : Value}
    (typed : ∀ type, instr.copySource = none → instr.myTypedValue = some type →
      value.IsObject type) :
    Executes instr vars (Function.update vars dst.number value) := by
  refine ⟨?_, ?_, ?_, ?_⟩
  · intro v outside
    rw [InstrNode.writes_of_one single, if_neg plain, List.mem_singleton] at outside
    exact Function.update_of_ne outside _ _
  · exact fun _ src _ moved => absurd moved (notMoved src)
  · intro dst' type single' source known
    rw [single, Destination.one.injEq, Reg.var.injEq] at single'
    rw [← single', Function.update_self]
    exact typed type source known
  · intro v increments
    rw [steady v] at increments
    contradiction

theorem types_hold_in_careful_runs_callOfNew :
    ∃ st s map vm, typeAnalysis callOfNew.toFlowGraph 4 = some st ∧
      Reachable callOfNew.Starts callOfNew.CarefulStep s ∧ (s.next, map) ∈ st.visited ∧
      prepareAll runnable (fun _ => 0#32) 3 = some vm ∧ map 0 = some 2 ∧
      map.Holds s.vars ∧ CallsRight runnable vm 3 (callOfNew.node s.next) map s.vars := by
  obtain ⟨vm, prepared, _⟩ := @prepareAll_prepared runnable 3 (fun _ => 0#32) (by decide)
    (by decide)
  have started : callOfNew.Starts ⟨0, fun _ => .word 0⟩ := ⟨rfl, fun _ _ typed => nomatch typed⟩
  have entered : callOfNew.CarefulStep ⟨0, fun _ => .word 0⟩ ⟨1, fun _ => .word 0⟩ :=
    ⟨⟨by decide, .idle rfl (fun _ => rfl) _⟩, fun overlooks => nomatch overlooks.1⟩
  have allocated : callOfNew.CarefulStep ⟨1, fun _ => .word 0⟩
      ⟨2, Function.update (fun _ => .word 0) 0 (.object 7 2)⟩ :=
    ⟨⟨by decide, .assign (callOfNew.node 1) ⟨0, .ref⟩ rfl (by decide) (fun _ => rfl)
      (fun _ moved => nomatch moved) _ (fun _ _ known => ⟨7, by rw [Option.some.inj known]⟩)⟩,
      fun overlooks => nomatch overlooks.1⟩
  obtain ⟨st, run⟩ := Option.isSome_iff_exists.mp
    (show (typeAnalysis callOfNew.toFlowGraph 4).isSome = true by decide)
  have visited : (2, leaves callOfNew.toFlowGraph
      (1, leaves callOfNew.toFlowGraph (0, callOfNew.makeInitMap))) ∈ st.visited := by
    obtain rfl := Option.some.inj run
    exact List.mem_cons_self
  refine ⟨st, _, _, vm, run, ((Reachable.start started).tail entered).tail allocated, visited,
    prepared, rfl, ?_⟩
  exact types_hold_in_careful_runs callOfNew 4 st run runnable (fun _ => 0#32) 3 vm prepared
    (by decide) (by decide) _ (((Reachable.start started).tail entered).tail allocated) _ visited

theorem types_fail_at_finally_entry :
    ∃ st s map, typeAnalysis finallyEntry.toFlowGraph 7 = some st ∧
      Reachable finallyEntry.Starts finallyEntry.Step s ∧ (s.next, map) ∈ st.visited ∧
      ¬ map.Holds s.vars := by
  let null : Nat → Value := fun _ => .word 0
  let held : Nat → Value := Function.update null 2 (.object 7 5)
  have started : finallyEntry.Starts ⟨0, null⟩ := ⟨rfl, fun _ _ typed => nomatch typed⟩
  have entered : finallyEntry.Step ⟨0, null⟩ ⟨1, null⟩ := ⟨by decide, .idle rfl (fun _ => rfl) _⟩
  have allocated : finallyEntry.Step ⟨1, null⟩ ⟨2, held⟩ :=
    ⟨by decide, .assign (finallyEntry.node 1) ⟨2, .ref⟩ rfl (by decide) (fun _ => rfl)
      (fun _ moved => nomatch moved) _ (fun _ _ known => ⟨7, by rw [Option.some.inj known]⟩)⟩
  have popped : finallyEntry.Step ⟨2, held⟩ ⟨3, held⟩ := ⟨by decide, .idle rfl (fun _ => rfl) _⟩
  have jumped : finallyEntry.Step ⟨3, held⟩ ⟨4, held⟩ := ⟨by decide, .idle rfl (fun _ => rfl) _⟩
  have overwritten : finallyEntry.Step ⟨4, held⟩ ⟨5, Function.update held 2 (.word 0)⟩ :=
    ⟨by decide, .assign (finallyEntry.node 4) ⟨2, .ref⟩ rfl (by decide) (fun _ => rfl)
      (fun _ moved => nomatch moved) _ (fun _ source => nomatch source)⟩
  have reached := ((((Reachable.start started).tail entered).tail allocated).tail popped).tail
    jumped |>.tail overwritten
  obtain ⟨st, run⟩ := Option.isSome_iff_exists.mp
    (show (typeAnalysis finallyEntry.toFlowGraph 7).isSome = true by decide)
  let flow : TypeMap → Nat → TypeMap := fun map n => leaves finallyEntry.toFlowGraph (n, map)
  have visited : (5, [0, 1, 2, 3, 4].foldl flow finallyEntry.makeInitMap) ∈ st.visited := by
    obtain rfl := Option.some.inj run
    exact List.mem_cons_self
  refine ⟨st, _, _, run, reached, visited, fun holds => ?_⟩
  obtain ⟨_, absurd⟩ := holds 2 5 rfl
  exact nomatch (Function.update_self 2 (Value.word 0) held).symm.trans absurd

end LaTTe.Translator
