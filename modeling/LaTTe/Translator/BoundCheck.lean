import LaTTe.Data.Transition
import LaTTe.Translator.Traversal

namespace LaTTe.Translator.Vn

open LaTTe.Data (Reachable)
open LaTTe.Translator (Reg Var g0)

/-! The checks that are removed from a region, over the runs of the region. -/

variable {m : Machine}

def numbered (instr : Instr) (st : Numbering) : Numbering :=
  assignVn (constantPropagation instr st).1 (constantPropagation instr st).2

def Covers (st : Numbering) (cond : Rhs × Rhs) : Prop :=
  ∀ left right, st.prevLeft = some left → st.prevRight = some right →
    left.isEqual cond.1 = true ∧ right.isEqual cond.2 = true ∧ Told left cond.1 ∧ Told right cond.2

/-- An instruction that is visited in a state that is right about it: where a check is
removed, one of the checks found has the same values. -/
structure Careful (instr : Instr) (st : Numbering) (loads : List Loaded) (s t : Store m) :
    Prop where
  ordinary : ∀ reg ∈ instr.looked, Ordinary reg
  regular : Regular (constantPropagation instr st).1 (constantPropagation instr st).2 s
  kept : Kept (constantPropagation instr st).1 (constantPropagation instr st).2 loads s t
  told : instr.code = .tleu → isAlreadyChecked (numbered instr st) = true →
    ∃ cond ∈ (numbered instr st).stack, Covers (numbered instr st) cond

section

variable {st next : Numbering} {values values' : Nat → Value} {loads : List Loaded}
variable {s t : Store m} {instr other : Instr}

theorem Rewrites.tleu (rewrites : Rewrites s instr other) :
    other.code = .tleu ↔ instr.code = .tleu := by
  have changed : ∀ code dest src value,
      (withImmediate code dest src value).code = .tleu ↔ code = .tleu := by
    intro code dest src value
    have reduces := withImmediate_reduces code dest src value
    generalize withImmediate code dest src value = other at reduces
    cases reduces with
    | one _ _ known => rcases known with rfl | rfl <;> exact iff_of_false nofun nofun
    | plain => rfl
    | _ => exact iff_of_false nofun nofun
  cases rewrites with
  | same => rfl
  | load => exact changed _ _ _ _
  | operation => exact changed _ _ _ _
  | store => rfl

theorem Right.numbered (right : Right st values loads s) (executes : Executes instr s t)
    (careful : Careful instr st loads s t) :
    Rewrites s instr (Vn.constantPropagation instr st).1 ∧
      Executes (Vn.constantPropagation instr st).1 s t ∧
        ∃ values', Extended (loadedBy instr (Vn.numbered instr st) s ++ loads)
          { t with compared := s.compared } st (Vn.numbered instr st) values values' := by
  obtain ⟨⟨values1, extended1⟩, rewrites⟩ := right.constantPropagation careful.ordinary
  have executes' := rewrites.executes executes careful.regular.ordinary
  have follows : Follows (Vn.constantPropagation instr st).1 (Vn.constantPropagation instr st).2
      loads (loadedBy instr (Vn.numbered instr st) s ++ loads) s t := by
    refine ⟨careful.regular, executes', careful.kept, fun _ member => ?_, fun record member => ?_⟩
    · exact List.mem_append_right _ member
    · rw [rewrites.loadedBy executes] at member
      exact List.mem_append_left _ member
  obtain ⟨values2, extended2⟩ := follows.assignVn extended1.right
  exact ⟨rewrites, executes', values2, extended1.grows.trans extended2.grows, extended2.right,
    extended2.checks.trans extended1.checks⟩

theorem compare_of_ne (notCompared : instr.code ≠ .subcc) :
    instr.compare s = none ∨ instr.compare s = s.compared := by
  unfold Instr.compare
  split
  · contradiction
  · exact .inl rfl
  · exact .inl rfl
  · split
    · exact .inl rfl
    · exact .inr rfl

theorem compare_behind (regular : Regular instr st s) (executes : Executes instr s t)
    (compared : instr.code = .subcc) :
    instr.compare { t with compared := s.compared } = instr.compare s := by
  have same : ∀ reg ∈ instr.sources, Ordinary reg →
      Store.read { t with compared := s.compared } reg = s.read reg := by
    rintro reg member (rfl | ⟨v, rfl⟩)
    · rfl
    · exact executes.frame _ (regular.steady compared v member)
  have ordinary := regular.ordinary
  obtain ⟨code, format⟩ := instr
  simp only at compared
  subst compared
  cases format with
  | format5 dest src simm13 =>
      have ordinary1 := ordinary src List.mem_cons_self
      simp only [Instr.compare, same src List.mem_cons_self ordinary1]
  | format6 dest src1 src2 =>
      have ordinary1 := ordinary src1 List.mem_cons_self
      have ordinary2 := ordinary src2 (List.mem_cons_of_mem _ List.mem_cons_self)
      simp only [Instr.compare, same src1 List.mem_cons_self ordinary1,
        same src2 (List.mem_cons_of_mem _ List.mem_cons_self) ordinary2]
  | _ => rfl

theorem eliminateBranch_other (notCompared : instr.code ≠ .subcc) (notTrap : instr.code ≠ .tleu) :
    eliminateBranch instr st = (false, st) := by
  unfold eliminateBranch
  split <;> first | rfl | contradiction

theorem Right.visit (right : Right st values loads s) (executes : Executes instr s t)
    (careful : Careful instr st loads s t) (notTrap : instr.code ≠ .tleu) :
    (Vn.visit instr st).2.stack = st.stack ∧
      ∃ values', Grows st (Vn.visit instr st).2 values values' ∧
        Right (Vn.visit instr st).2 values'
          (loadedBy instr (Vn.numbered instr st) s ++ loads) t := by
  obtain ⟨rewrites, executes', values1, extended⟩ := right.numbered executes careful
  have stack : (Vn.numbered instr st).stack = st.stack := (Prod.mk.inj extended.checks).1
  have result : Vn.visit instr st =
      Vn.eliminateBranch (Vn.constantPropagation instr st).1 (Vn.numbered instr st) := rfl
  rw [result]
  by_cases compared : (Vn.constantPropagation instr st).1.code = .subcc
  · obtain ⟨_, stack', values2, grows, right'⟩ :=
      extended.right.eliminateBranch_subcc compared careful.regular.ordinary
    rw [compare_behind careful.regular executes' compared, ← executes'.compared] at right'
    exact ⟨stack'.trans stack, values2, extended.grows.trans grows, right'⟩
  · rw [eliminateBranch_other compared (fun isTrap => notTrap (rewrites.tleu.mp isTrap))]
    refine ⟨stack, values1, extended.grows, extended.right.uncompare ?_⟩
    rw [executes'.compared]
    exact compare_of_ne compared

/-- A trap is removed if one of the checks found had the same values, and pushed otherwise. -/
theorem Right.visit_tleu (right : Right st values loads s) (executes : Executes instr s t)
    (careful : Careful instr st loads s t) (isTrap : instr.code = .tleu) {x y : Value}
    (compared : s.compared = some (x, y)) :
    ∃ values', Grows st (Vn.visit instr st).2 values values' ∧
      Right (Vn.visit instr st).2 values' (loadedBy instr (Vn.numbered instr st) s ++ loads) t ∧
      if (Vn.visit instr st).1 then
        (Vn.visit instr st).2.stack = st.stack ∧
          ∃ cond ∈ st.stack, values' cond.1.vn = x ∧ values' cond.2.vn = y
      else ∃ left other, (Vn.visit instr st).2.stack = (left, other) :: st.stack ∧
        values' left.vn = x ∧ values' other.vn = y := by
  obtain ⟨rewrites, executes', values1, extended⟩ := right.numbered executes careful
  have stack : (Vn.numbered instr st).stack = st.stack := (Prod.mk.inj extended.checks).1
  have result : Vn.visit instr st =
      Vn.eliminateBranch (Vn.constantPropagation instr st).1 (Vn.numbered instr st) := rfl
  have isTrap' := rewrites.tleu.mpr isTrap
  have right' : Right (Vn.numbered instr st) values1
      (loadedBy instr (Vn.numbered instr st) s ++ loads) t := by
    refine extended.right.uncompare ?_
    rw [executes'.compared]
    exact compare_of_ne (by rw [isTrap']; decide)
  obtain ⟨⟨left, prevLeft, named⟩, other, prevRight, named'⟩ :=
    extended.right.compared x y compared
  have step : Vn.eliminateBranch (Vn.constantPropagation instr st).1 (Vn.numbered instr st) =
      if isAlreadyChecked (Vn.numbered instr st) then (true, Vn.numbered instr st)
      else (false, { Vn.numbered instr st with
        stack := (left, other) :: (Vn.numbered instr st).stack }) := by
    simp only [Vn.eliminateBranch, isTrap', prevLeft, prevRight]
  rw [result, step]
  refine ⟨values1, ?_⟩
  split
  · rename_i already
    obtain ⟨cond, member, covers⟩ := careful.told isTrap already
    obtain ⟨equalLeft, equalRight, toldLeft, toldRight⟩ := covers left other prevLeft prevRight
    obtain ⟨first, second⟩ := extended.right.stack cond member
    refine ⟨extended.grows, right', ?_⟩
    simp only [if_true]
    exact ⟨stack, cond, stack ▸ member, (named.told first toldLeft equalLeft).symm,
      (named'.told second toldRight equalRight).symm⟩
  · refine ⟨extended.grows.trans (.of_eq rfl rfl),
      ⟨right'.map, right'.table, ?_, right'.compared⟩, ?_⟩
    · intro cond member
      rcases List.mem_cons.mp member with rfl | member
      · exact ⟨named.self, named'.self⟩
      · exact right'.stack cond member
    · exact ⟨left, other, congrArg _ stack, named.value, named'.value⟩

end

/-! The runs of a region that has been traversed. -/

def Passes (length index : Value) : Prop :=
  ∃ l i, length = .word l ∧ index = .word i ∧ i < l

inductive Event where
  | checked (length index : Value)
  | removed (length index : Value)

inductive Performs (instr : Instr) (removed : Bool) (s : Store m) : List Event → Prop where
  | other (notTrap : instr.code ≠ .tleu) : Performs instr removed s []
  | check (length index : Value) (isTrap : instr.code = .tleu) (here : removed = false)
      (compared : s.compared = some (length, index)) (passes : Passes length index) :
      Performs instr removed s [.checked length index]
  | skip (length index : Value) (isTrap : instr.code = .tleu) (gone : removed = true)
      (compared : s.compared = some (length, index)) :
      Performs instr removed s [.removed length index]

structure Config (m : Machine) where
  rest : Visited
  store : Store m
  loads : List Loaded
  trace : List Event

def Store.enter (s : Store m) (targets : Nat) : Store m :=
  if targets = 1 then s else { s with compared := none }

inductive Step : Config m → Config m → Prop where
  | node (instr : Instr) (before : Numbering) (removed : Bool) (targets : List Visited)
      (next : Visited) (s t : Store m) (loads : List Loaded) (trace events : List Event)
      (executes : Executes instr s t) (performs : Performs instr removed s events)
      (chosen : next ∈ targets) :
      Step ⟨.node instr before removed targets, s, loads, trace⟩
        ⟨next, t.enter targets.length, loadedBy instr (numbered instr before) s ++ loads,
          events ++ trace⟩

def CarefulStep (before after : Config m) : Prop :=
  Step before after ∧ ∀ instr st removed targets, before.rest = .node instr st removed targets →
    Careful instr st before.loads before.store after.store

/-- The run of a region that is about to start, in whatever state of the machine; the
comparison of the last region was still remembered. -/
def Starts (region : Region) (c : Config m) : Prop :=
  (∃ prevLeft prevRight last,
    traverse region (.initial prevLeft prevRight) = some (c.rest, last)) ∧
    c.store.compared = none ∧ c.loads = [] ∧ c.trace = []

def Justified (trace : List Event) : Prop :=
  ∀ later length index earlier, trace = later ++ .removed length index :: earlier →
    .checked length index ∈ earlier ∧ Passes length index

structure Sound (c : Config m) : Prop where
  justified : Justified c.trace
  passed : ∀ length index, .checked length index ∈ c.trace → Passes length index
  numbering : ∃ region st values last, traverse region st = some (c.rest, last) ∧
    Right st values c.loads c.store ∧
      ∀ cond ∈ st.stack, .checked (values cond.1.vn) (values cond.2.vn) ∈ c.trace

section

theorem Justified.cons {trace : List Event} {event : Event} (justified : Justified trace)
    (now : ∀ length index, event = .removed length index →
      .checked length index ∈ trace ∧ Passes length index) : Justified (event :: trace) := by
  intro later length index earlier split
  cases later with
  | nil =>
      obtain ⟨rfl, rfl⟩ := List.cons.inj split
      exact now length index rfl
  | cons first rest => exact justified rest length index earlier (List.cons.inj split).2

variable {st next : Numbering} {values : Nat → Value} {loads : List Loaded} {s t : Store m}

theorem Careful.enter {instr : Instr} {count : Nat}
    (careful : Careful instr st loads s (t.enter count)) : Careful instr st loads s t := by
  refine ⟨careful.ordinary, careful.regular, ?_, careful.told⟩
  have memory : (t.enter count).memory = t.memory := by
    unfold Store.enter
    split <;> rfl
  have kept := careful.kept
  unfold Kept at kept
  rw [memory] at kept
  exact kept

theorem Right.enter (right : Right st values loads s) {count : Nat}
    (resumes : Resumes count st next) :
    Right (next.enter count) values loads (s.enter count) := by
  have grows : Grows st next values values :=
    ⟨Nat.le_of_eq resumes.currentVn.symm, fun _ _ => rfl, resumes.rhsOf⟩
  have entered : Right next values loads (s.enter count) := by
    have vars : (s.enter count).vars = s.vars := by unfold Store.enter; split <;> rfl
    have memory : (s.enter count).memory = s.memory := by unfold Store.enter; split <;> rfl
    refine right.carry grows (fun k vn known => ⟨resumes.map ▸ known, by rw [vars]⟩)
      (fun r member => resumes.table ▸ member)
      (fun r _ available code op1 op2 field isLoad => ?_)
      (fun cond member => resumes.stack ▸ member) ?_
    · rw [memory]
      exact available code op1 op2 field isLoad
    · unfold Store.enter
      split
      · rename_i single
        exact .inr ⟨rfl, resumes.previous single⟩
      · exact .inl rfl
  unfold Numbering.enter
  split
  · exact entered
  · exact entered.carry (.of_eq rfl rfl) (fun _ _ known => ⟨known, rfl⟩)
      (fun _ member => absurd member List.not_mem_nil)
      (fun _ member => absurd member List.not_mem_nil) (fun _ member => member)
      (.inr ⟨rfl, rfl, rfl⟩)

theorem Right.initial (prevLeft prevRight : Option Rhs) (uncompared : s.compared = none) :
    Right (.initial prevLeft prevRight) values loads s where
  map := fun _ vn known => absurd known.symm (Option.some_ne_none vn)
  table := fun _ member => absurd member List.not_mem_nil
  stack := fun _ member => absurd member List.not_mem_nil
  compared := fun _ _ equal => absurd (equal.symm.trans uncompared) (Option.some_ne_none _)

theorem Sound.start {region : Region} {c : Config m} (starts : Starts region c) : Sound c := by
  obtain ⟨⟨prevLeft, prevRight, last, rest⟩, compared, loads, trace⟩ := starts
  refine ⟨?_, ?_, region, _, fun _ => .other 0, last, rest, .initial _ _ compared, ?_⟩
  · intro later length index earlier split
    rw [trace] at split
    exact absurd split.symm (List.append_ne_nil_of_right_ne_nil _ (List.cons_ne_nil _ _))
  · rw [trace]
    exact fun _ _ member => absurd member List.not_mem_nil
  · exact fun _ member => absurd member List.not_mem_nil

def Covered (trace : List Event) (st : Numbering) (values : Nat → Value) : Prop :=
  ∀ cond ∈ st.stack, .checked (values cond.1.vn) (values cond.2.vn) ∈ trace

theorem Covered.grow {trace : List Event} {values' : Nat → Value}
    (covered : Covered trace st values)
    (right : Right st values loads s) (grows : Grows st next values values') :
    ∀ cond ∈ st.stack, .checked (values' cond.1.vn) (values' cond.2.vn) ∈ trace := by
  intro cond member
  obtain ⟨first, second⟩ := right.stack cond member
  rw [grows.agrees _ first.below, grows.agrees _ second.below]
  exact covered cond member

/-- One instruction of a careful run. -/
theorem Sound.visit {instr : Instr} {trace events : List Event} (justified : Justified trace)
    (passed : ∀ length index, .checked length index ∈ trace → Passes length index)
    (right : Right st values loads s) (covered : Covered trace st values)
    (executes : Executes instr s t) (careful : Careful instr st loads s t)
    (performs : Performs instr (Vn.visit instr st).1 s events) :
    Justified (events ++ trace) ∧
      (∀ length index, .checked length index ∈ events ++ trace → Passes length index) ∧
        ∃ values', Right (Vn.visit instr st).2 values'
            (loadedBy instr (numbered instr st) s ++ loads) t ∧
          Covered (events ++ trace) (Vn.visit instr st).2 values' := by
  cases performs with
  | other notTrap =>
      obtain ⟨stack, values', grows, right'⟩ := right.visit executes careful notTrap
      exact ⟨justified, passed, values', right',
        fun cond member => covered.grow right grows cond (stack ▸ member)⟩
  | check length index isTrap here compared passes =>
      obtain ⟨values', grows, right', result⟩ :=
        right.visit_tleu executes careful isTrap compared
      rw [here, if_neg Bool.false_ne_true] at result
      obtain ⟨left, other, stack, first, second⟩ := result
      refine ⟨justified.cons (fun _ _ absurd => nomatch absurd), ?_, values', right', ?_⟩
      · intro length' index' member
        rcases List.mem_cons.mp member with same | member
        · obtain ⟨rfl, rfl⟩ := Event.checked.inj same
          exact passes
        · exact passed length' index' member
      · intro cond member
        rw [stack] at member
        rcases List.mem_cons.mp member with rfl | member
        · rw [first, second]
          exact List.mem_cons_self
        · exact List.mem_cons_of_mem _ (covered.grow right grows cond member)
  | skip length index isTrap gone compared =>
      obtain ⟨values', grows, right', result⟩ :=
        right.visit_tleu executes careful isTrap compared
      rw [gone, if_pos rfl] at result
      obtain ⟨stack, cond, member, first, second⟩ := result
      have before := covered.grow right grows cond member
      rw [first, second] at before
      refine ⟨justified.cons (fun length' index' same => ?_), ?_, values', right', ?_⟩
      · obtain ⟨rfl, rfl⟩ := Event.removed.inj same
        exact ⟨before, passed _ _ before⟩
      · intro length' index' member
        rcases List.mem_cons.mp member with same | member
        · contradiction
        · exact passed length' index' member
      · exact fun cond member =>
          List.mem_cons_of_mem _ (covered.grow right grows cond (stack ▸ member))

theorem Sound.step {before after : Config m} (sound : Sound before)
    (taken : CarefulStep before after) : Sound after := by
  obtain ⟨taken, careful⟩ := taken
  cases taken with
  | node instr st removed targets next s t loads trace events executes performs chosen =>
      obtain ⟨justified, passed, region, start, values, last, rest, right, covered⟩ := sound
      have careful := (careful instr st removed targets rfl).enter
      cases region with
      | exit => cases rest
      | node instr' targets' =>
          obtain ⟨-, others, traversed, same⟩ := traverse_node rest
          injection same with sameInstr sameState sameRemoved sameTargets
          subst sameInstr sameState sameRemoved sameTargets
          obtain ⟨justified', passed', values', right', covered'⟩ :=
            Sound.visit justified passed right covered executes careful performs
          obtain ⟨region, start, after, equal, resumes⟩ :=
            mem_traverseTargets (fun one => Nat.le_of_eq one) traversed chosen
          have stack : (start.enter targets'.length).stack = (Vn.visit instr st).2.stack := by
            unfold Numbering.enter
            split <;> exact resumes.stack
          refine ⟨justified', passed', region, _, values', after, equal, ?_, ?_⟩
          · rw [length_traverseTargets traversed]
            exact right'.enter resumes
          · exact fun cond member => covered' cond (stack ▸ member)

/-- In every run of a region whose steps are careful, each check that was removed follows
one that was passed with the same length and the same index. -/
theorem removed_checks_were_passed (region : Region) (c : Config m)
    (reached : Reachable (Starts region) CarefulStep c) : Justified c.trace :=
  (reached.invariant Sound (fun _ starts => .start starts) (fun _ _ sound => sound.step)).justified

end

/-! Two accesses to an array. -/

def chain : List Instr → Region
  | [] => .exit
  | instr :: rest => .node instr [chain rest]

def visited : List Instr → Numbering → Visited
  | [], _ => .exit
  | instr :: rest, st =>
      .node instr st (visit instr st).1 [visited rest (visit instr st).2]

theorem traverse_chain {instrs : List Instr} {st last : Numbering} {result : Visited}
    (traversed : traverse (chain instrs) st = some (result, last)) :
    result = visited instrs st := by
  induction instrs generalizing st result last with
  | nil =>
      cases traversed
      rfl
  | cons instr rest ih =>
      obtain ⟨-, others, targets, rfl⟩ := traverse_node traversed
      obtain ⟨first, after, others', equal, none, rfl⟩ := traverseTargets_cons targets
      cases none
      rw [visited, ih equal]
      rfl

def loadLength (length array : Var) : Instr :=
  ⟨.ld, .format4 (.var length) (.var array) g0⟩

def compareIndex (length index : Var) : Instr :=
  ⟨.subcc, .format6 g0 (.var length) (.var index)⟩

def trap : Instr :=
  ⟨.tleu, .none⟩

def access (length array index : Var) : List Instr :=
  [loadLength length array, compareIndex length index, trap]

def Store.loaded (s : Store m) (length array : Var) : Store m :=
  let x := m.load .ld s.memory (s.vars array.number) (.word 0)
  { s with vars := Function.update s.vars length.number x }

def Store.comparing (s : Store m) (length index : Var) : Store m :=
  { s with compared := some (s.vars length.number, s.vars index.number) }

theorem executes_loadLength {length array : Var} (int : length.type ≠ .double) (s : Store m) :
    Executes (loadLength length array) s (s.loaded length array) where
  formed := fun _ => nofun
  words := nofun
  value := by
    intro v x dest value
    cases dest
    cases value
    exact Function.update_self _ _ _
  frame := by
    intro k outside
    refine Function.update_of_ne (fun same => outside ?_) _ _
    show k ∈ Instr.span length
    rw [Instr.span, if_neg int, same]
    exact List.mem_cons_self
  memory := fun _ _ => rfl
  compared := rfl

theorem executes_compareIndex {length index : Var} (s : Store m) :
    Executes (compareIndex length index) s (s.comparing length index) where
  formed := nofun
  words := nofun
  value := nofun
  frame := fun _ _ => rfl
  memory := fun _ _ => rfl
  compared := rfl

theorem executes_trap (s : Store m) : Executes trap s s where
  formed := nofun
  words := nofun
  value := nofun
  frame := fun _ _ => rfl
  memory := fun _ _ => rfl
  compared := rfl

theorem careful_loadLength {length array : Var} (int : length.type ≠ .double) (st : Numbering)
    (loads : List Loaded) (s : Store m) :
    Careful (loadLength length array) st loads s (s.loaded length array) where
  ordinary := fun _ member => absurd member List.not_mem_nil
  regular := by
    refine ⟨fun _ member => absurd member List.not_mem_nil, fun _ v _ => ⟨_, rfl⟩, nofun, nofun,
      nofun, fun k member => .inl ⟨length, rfl, ?_⟩⟩
    change k ∈ Instr.span length at member
    rw [Instr.span, if_neg int, List.mem_singleton] at member
    exact member.symm
  kept := fun _ _ _ _ _ _ _ _ _ => rfl
  told := nofun

theorem careful_compareIndex {length index : Var} {st : Numbering}
    (same : (constantPropagation (compareIndex length index) st).1 = compareIndex length index)
    (loads : List Loaded) (s : Store m) :
    Careful (compareIndex length index) st loads s (s.comparing length index) := by
  have ordinary : ∀ reg ∈ [Reg.var length, .var index], Ordinary reg := by
    intro reg member
    rcases List.mem_cons.mp member with rfl | member
    · exact .inr ⟨length, rfl⟩
    · exact .inr ⟨index, List.mem_singleton.mp member⟩
  refine ⟨ordinary, ?_, fun _ _ _ _ _ _ _ _ _ => rfl, nofun⟩
  rw [same]
  exact ⟨ordinary, nofun, nofun, nofun, fun _ _ _ => List.not_mem_nil,
    fun _ member => absurd member List.not_mem_nil⟩

theorem careful_trap {st : Numbering} (loads : List Loaded) (s : Store m)
    (told : isAlreadyChecked st = true → ∃ cond ∈ st.stack, Covers st cond) :
    Careful trap st loads s s where
  ordinary := fun _ member => absurd member List.not_mem_nil
  regular := ⟨fun _ member => absurd member List.not_mem_nil, nofun, nofun, nofun, nofun,
    fun _ member => absurd member List.not_mem_nil⟩
  kept := fun _ _ _ _ _ _ _ _ _ => rfl
  told := fun _ => told

def comparedIn (st : Numbering) (length array index : Var) : Numbering :=
  (visit (compareIndex length index) (visit (loadLength length array) st).2).2

theorem step_chain {instr : Instr} {rest : List Instr} {st : Numbering} {s t : Store m}
    {loads : List Loaded} {trace events : List Event} (executes : Executes instr s t)
    (performs : Performs instr (visit instr st).1 s events) :
    Step ⟨visited (instr :: rest) st, s, loads, trace⟩
      ⟨visited rest (visit instr st).2, t,
        loadedBy instr (numbered instr st) s ++ loads, events ++ trace⟩ :=
  .node instr st _ _ _ s t loads trace events executes performs List.mem_cons_self

theorem careful_chain {instr : Instr} {rest : List Instr} {st : Numbering} {s t : Store m}
    {loads : List Loaded} {trace events : List Event} (executes : Executes instr s t)
    (performs : Performs instr (visit instr st).1 s events)
    (careful : Careful instr st loads s t) :
    CarefulStep ⟨visited (instr :: rest) st, s, loads, trace⟩
      ⟨visited rest (visit instr st).2, t,
        loadedBy instr (numbered instr st) s ++ loads, events ++ trace⟩ := by
  refine ⟨step_chain executes performs, ?_⟩
  intro instr' st' removed targets here
  change Visited.node instr st (visit instr st).1 [_] = _ at here
  injection here with sameInstr sameState
  subst sameInstr sameState
  exact careful

theorem starts_visited {instrs : List Instr}
    (within : (traverse (chain instrs) (.initial none none)).isSome) {s : Store m}
    (uncompared : s.compared = none) :
    Starts (chain instrs) ⟨visited instrs (.initial none none), s, [], []⟩ := by
  obtain ⟨⟨result, last⟩, traversed⟩ := Option.isSome_iff_exists.mp within
  exact ⟨⟨none, none, last, traverse_chain traversed ▸ traversed⟩, uncompared, rfl, rfl⟩

theorem access_compared {length array index : Var} {rest : List Instr} {st : Numbering}
    {s : Store m} {loads : List Loaded} {trace : List Event} {initial : Config m → Prop}
    (reached : Reachable initial CarefulStep
      ⟨visited (access length array index ++ rest) st, s, loads, trace⟩)
    (int : length.type ≠ .double)
    (same : (constantPropagation (compareIndex length index)
      (visit (loadLength length array) st).2).1 = compareIndex length index) :
    ∃ loads', Reachable initial CarefulStep
      ⟨visited (trap :: rest) (comparedIn st length array index),
        (s.loaded length array).comparing length index, loads', trace⟩ :=
  ⟨_, (reached.tail (careful_chain (executes_loadLength int s) (.other nofun)
    (careful_loadLength int st loads s))).tail
    (careful_chain (executes_compareIndex _) (.other nofun) (careful_compareIndex same _ _))⟩

/-- `a[i]; a[j]`, where the second index is in the given variable. -/
def twoAccesses (index : Var) : List Instr :=
  access ⟨3, .int⟩ ⟨0, .ref⟩ ⟨1, .int⟩ ++ (access ⟨4, .int⟩ ⟨0, .ref⟩ index ++ [])

def single : Machine where
  Memory := Unit
  load := fun _ _ _ _ => .word 1
  operate := fun _ a _ => a

def outside : Store single :=
  ⟨fun k => if k = 2 then .word 5 else .word 0, fun _ => .word 0, (), none⟩

def afterFirst : Numbering :=
  (visit trap (comparedIn (.initial none none) ⟨3, .int⟩ ⟨0, .ref⟩ ⟨1, .int⟩)).2

theorem twoAccesses_run (index : Var)
    (within : (traverse (chain (twoAccesses index)) (.initial none none)).isSome)
    (same : (constantPropagation (compareIndex ⟨4, .int⟩ index)
      (visit (loadLength ⟨4, .int⟩ ⟨0, .ref⟩) afterFirst).2).1 = compareIndex ⟨4, .int⟩ index) :
    ∃ loads, Reachable (Starts (chain (twoAccesses index))) CarefulStep
      ⟨visited [trap] (comparedIn afterFirst ⟨4, .int⟩ ⟨0, .ref⟩ index),
        (((outside.loaded ⟨3, .int⟩ ⟨0, .ref⟩).comparing ⟨3, .int⟩ ⟨1, .int⟩).loaded
          ⟨4, .int⟩ ⟨0, .ref⟩).comparing ⟨4, .int⟩ index, loads,
        [.checked (.word 1) (.word 0)]⟩ := by
  have start : Reachable (Starts (chain (twoAccesses index))) CarefulStep
      ⟨visited (twoAccesses index) (.initial none none), outside, [], []⟩ :=
    .start (starts_visited within rfl)
  obtain ⟨loads, compared⟩ := access_compared start (by decide) (by decide)
  have passed : Performs trap
      (visit trap (comparedIn (.initial none none) ⟨3, .int⟩ ⟨0, .ref⟩ ⟨1, .int⟩)).1
      ((outside.loaded ⟨3, .int⟩ ⟨0, .ref⟩).comparing ⟨3, .int⟩ ⟨1, .int⟩)
      [.checked (.word 1) (.word 0)] :=
    .check _ _ rfl (by decide) rfl ⟨1, 0, rfl, rfl, by decide⟩
  have first : isAlreadyChecked
      (comparedIn (.initial none none) ⟨3, .int⟩ ⟨0, .ref⟩ ⟨1, .int⟩) = false := by decide
  have checked := compared.tail (careful_chain (executes_trap _) passed
    (careful_trap _ _ (fun already => absurd already (ne_true_of_eq_false first))))
  exact access_compared checked (by decide) same

theorem removed_checks_were_passed_same_index :
    ∃ c : Config single, Reachable (Starts (chain (twoAccesses ⟨1, .int⟩))) CarefulStep c ∧
      c.trace = [.removed (.word 1) (.word 0), .checked (.word 1) (.word 0)] ∧
      Justified c.trace := by
  obtain ⟨loads, compared⟩ := twoAccesses_run ⟨1, .int⟩ (by decide +kernel) (by decide)
  have reached := compared.tail (careful_chain (executes_trap _)
    (.skip (.word 1) (.word 0) rfl (by decide) rfl) (careful_trap _ _ (fun _ => by
      refine ⟨_, List.mem_cons_self, fun left right first second => ?_⟩
      cases first
      cases second
      exact ⟨rfl, rfl, by decide, by decide⟩)))
  exact ⟨_, reached, rfl, removed_checks_were_passed _ _ reached⟩

theorem removed_check_was_not_passed :
    ∃ (region : Region) (c : Config single), Reachable (Starts region) Step c ∧
      ¬ Justified c.trace := by
  obtain ⟨loads, compared⟩ := twoAccesses_run ⟨2, .int⟩ (by decide +kernel) (by decide)
  have reached := (compared.weaken (fun _ _ taken => taken.1)).tail
    (step_chain (executes_trap _) (.skip (.word 1) (.word 5) rfl (by decide) rfl))
  refine ⟨chain (twoAccesses ⟨2, .int⟩), _, reached, fun justified => ?_⟩
  obtain ⟨before, _⟩ := justified [] (.word 1) (.word 5) [.checked (.word 1) (.word 0)] rfl
  rcases List.mem_singleton.mp before with ⟨⟩

end LaTTe.Translator.Vn
