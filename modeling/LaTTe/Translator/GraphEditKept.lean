import LaTTe.Data.Transition
import LaTTe.Translator.GraphEdit
import Mathlib.Data.Option.Basic

namespace LaTTe.Translator.GraphEdit

open LaTTe.Data

variable {α : Type} [DecidableEq α]

/-! What the edits keep. -/

namespace Cfg

def Listed (cfg : Cfg α) : Prop :=
  ∀ (index : Nat) (instr : α), cfg.instrList[index]? = some (some instr) →
    cfg.arrayIndex instr = index

@[simp] theorem links_passLoopHeader (cfg : Cfg α) (instr succ : α) :
    (cfg.passLoopHeader instr succ).links = cfg.links := by
  unfold passLoopHeader
  split <;> rfl

@[simp] theorem links_passH (cfg : Cfg α) (instr newInstr : α) :
    (cfg.passH instr newInstr).links = cfg.links := by
  unfold passH
  split <;> rfl

@[simp] theorem links_registerInstr (cfg : Cfg α) (instr : α) :
    (cfg.registerInstr instr).links = cfg.links :=
  rfl

@[simp] theorem instrList_passLoopHeader (cfg : Cfg α) (instr succ : α) :
    (cfg.passLoopHeader instr succ).instrList = cfg.instrList := by
  unfold passLoopHeader
  split <;> rfl

@[simp] theorem arrayIndex_passLoopHeader (cfg : Cfg α) (instr succ : α) :
    (cfg.passLoopHeader instr succ).arrayIndex = cfg.arrayIndex := by
  unfold passLoopHeader
  split <;> rfl

@[simp] theorem maxSizeOfList_passLoopHeader (cfg : Cfg α) (instr succ : α) :
    (cfg.passLoopHeader instr succ).maxSizeOfList = cfg.maxSizeOfList := by
  unfold passLoopHeader
  split <;> rfl

variable {cfg next : Cfg α}

omit [DecidableEq α] in
theorem deregisterInstr_eq_some {instr : α} (removed : cfg.deregisterInstr instr = some next) :
    next.links = cfg.links ∧
      next.instrList = cfg.instrList.set (cfg.arrayIndex instr).toNat none := by
  unfold deregisterInstr at removed
  split at removed
  · cases removed
    exact ⟨rfl, rfl⟩
  · cases removed

omit [DecidableEq α] in
theorem not_mem_set_none (listed : cfg.Listed) (instr : α) :
    some instr ∉ cfg.instrList.set (cfg.arrayIndex instr).toNat none := by
  intro member
  obtain ⟨index, found⟩ := List.mem_iff_getElem?.mp member
  rw [List.getElem?_set] at found
  split at found
  · split at found <;> cases found
  · rename_i elsewhere
    apply elsewhere
    rw [listed index instr found]
    exact Int.toNat_natCast index

end Cfg

structure Kept (cfg : Cfg α) (edit : Edit α) (next : Cfg α) : Prop where
  mirrored : next.links.Mirrored
  places : ∀ pred index succ, edit.removed ≠ some pred →
    (cfg.links.succs pred)[index]? = some succ →
    (next.links.succs pred)[index]? = some (edit.target cfg pred index succ)
  gone : ∀ instr, edit.removed = some instr →
    (∀ other, instr ∉ next.links.succs other ∧ instr ∉ next.links.preds other) ∧
      (cfg.Listed → some instr ∉ next.instrList)

theorem getElem?_redirect {items : List α} {old new item : α} {index : Nat}
    (found : items[index]? = some item) :
    (redirect old new items)[index]? = some (if item = old then new else item) := by
  rw [redirect, List.getElem?_map, found]
  rfl

namespace Cfg

variable {cfg next : Cfg α}

theorem removeInstr_eq_some {fuel : Nat} {instr : α}
    (removed : cfg.removeInstr fuel instr = some next) :
    ∃ succ, cfg.links.succs instr = [succ] ∧ succ ≠ instr ∧
      next.links = cfg.links.bypass instr ∧ next.links.succs instr = [] ∧
      next.instrList = cfg.instrList.set (cfg.arrayIndex instr).toNat none := by
  simp only [removeInstr, Option.bind_eq_bind] at removed
  obtain ⟨_, asserted, removed⟩ := Option.bind_eq_some_iff.mp removed
  obtain ⟨one, entered⟩ := (Option.guard_eq_some' _).mp asserted
  obtain ⟨succ, onlySucc⟩ := List.length_eq_one_iff.mp one
  obtain ⟨pred, others, preds⟩ :=
    List.exists_cons_of_ne_nil (List.length_pos_iff.mp (Nat.pos_of_ne_zero entered))
  rw [onlySucc, preds] at removed
  simp only [List.getElem?_cons_zero, Option.bind_some] at removed
  obtain ⟨_, asserted, removed⟩ := Option.bind_eq_some_iff.mp removed
  obtain ⟨moves, _⟩ := (Option.guard_eq_some' _).mp asserted
  obtain ⟨links, passed, removed⟩ := Option.bind_eq_some_iff.mp removed
  obtain ⟨_, rfl⟩ := Links.passAll_eq_some moves preds passed
  obtain ⟨sameLinks, instrList⟩ := deregisterInstr_eq_some removed
  have bypassed : next.links = cfg.links.bypass instr := by
    rw [sameLinks]
    simp only [LinkGraph.bypass, preds, onlySucc, List.headD_cons, links_passLoopHeader,
      Links.removeAllPreds, Links.removeAllSuccs]
  refine ⟨succ, onlySucc, moves, bypassed, ?_, ?_⟩
  · rw [sameLinks]
    exact Function.update_self ..
  · rw [instrList, instrList_passLoopHeader, arrayIndex_passLoopHeader]

theorem removeInstr_kept (mirrored : cfg.links.Mirrored) {fuel : Nat} {instr : α}
    (removed : cfg.removeInstr fuel instr = some next) : Kept cfg (.removeInstr instr) next := by
  obtain ⟨succ, onlySucc, moves, bypass, without, instrList⟩ := removeInstr_eq_some removed
  have bypassed := LinkGraph.bypassed mirrored onlySucc moves
  rw [← bypass] at bypassed
  refine ⟨bypassed.mirrored, ?_, ?_⟩
  · intro pred index target other found
    have differs : pred ≠ instr := fun same => other (congrArg some same.symm)
    rw [bypassed.succs pred differs, getElem?_redirect found]
    simp only [Edit.target, onlySucc, List.headD_cons]
  · intro gone same
    cases same
    refine ⟨fun other => ⟨?_, ?_⟩, ?_⟩
    · by_cases same : other = instr
      · rw [same, without]
        exact List.not_mem_nil
      · rw [bypassed.succs other same]
        exact not_mem_redirect _ moves
    · rw [← bypassed.mirrored.mem_iff, without]
      exact List.not_mem_nil
    · intro listed
      rw [instrList]
      exact not_mem_set_none listed instr

theorem removeInstr_returns (mirrored : cfg.links.Mirrored) {instr succ : α}
    (onlySucc : cfg.links.succs instr = [succ]) (moves : succ ≠ instr)
    (entered : cfg.links.preds instr ≠ [])
    (registered : 0 ≤ cfg.arrayIndex instr ∧ cfg.arrayIndex instr < cfg.maxSizeOfList) :
    ∃ fuel next, cfg.removeInstr fuel instr = some next := by
  have target : succ ∈ cfg.links.succs instr := by
    rw [onlySucc]
    exact List.mem_singleton_self succ
  obtain ⟨fuel, links, passed⟩ : ∃ fuel links,
      Links.passAll cfg.links fuel instr succ = some links :=
    ⟨_, Links.passAll_returns mirrored moves target entered (Nat.le_refl _)⟩
  obtain ⟨pred, others, preds⟩ := List.exists_cons_of_ne_nil entered
  have outside : pred ≠ instr := by
    intro same
    have itself : instr ∈ cfg.links.succs instr := by
      rw [mirrored.mem_iff, preds, same]
      exact List.mem_cons_self
    rw [onlySucc, List.mem_singleton] at itself
    exact moves itself.symm
  refine ⟨fuel, ?_⟩
  simp [removeInstr, passed, onlySucc, preds, moves, outside, guard, deregisterInstr, registered]
theorem removeBranch_eq_some {fuel : Nat} {instr : α} {succIndex : Nat}
    (removed : cfg.removeBranch fuel instr succIndex = some next) :
    ∃ succ links, succ ∈ cfg.links.succs instr ∧ cfg.links.preds instr ≠ [] ∧
      Links.passAll cfg.links fuel instr succ = some links ∧
      next.links = Links.removeAllPreds links instr := by
  simp only [removeBranch, Option.bind_eq_bind] at removed
  obtain ⟨_, asserted, removed⟩ := Option.bind_eq_some_iff.mp removed
  have entered := (Option.guard_eq_some' _).mp asserted
  obtain ⟨succ, found, removed⟩ := Option.bind_eq_some_iff.mp removed
  obtain ⟨links, passed, removed⟩ := Option.bind_eq_some_iff.mp removed
  cases removed
  refine ⟨succ, links, List.mem_of_getElem? found, ?_, passed, ?_⟩
  · exact fun none => entered (List.length_eq_zero_iff.mpr none)
  · rw [links_passLoopHeader]

/-- A branch to itself is removed only if nothing else comes to it. -/
theorem passAll_self {g links : LinkGraph α} (mirrored : g.Mirrored) {fuel : Nat} {instr : α}
    (listed : instr ∈ g.succs instr) (passed : Links.passAll g fuel instr instr = some links) :
    g.preds instr = [instr] ∧ instr ∈ links.succs instr ∧
      ∀ other, other ≠ instr → links.preds other = g.preds other := by
  have entered := mirrored.mem_iff.mp listed
  obtain ⟨pred, others, preds⟩ := List.exists_cons_of_ne_nil (List.ne_nil_of_mem entered)
  simp only [Links.passAll, preds, List.getElem?_cons_zero, Option.bind_eq_bind,
    Option.bind_some] at passed
  obtain ⟨_, first, passed⟩ := Option.bind_eq_some_iff.mp passed
  obtain ⟨_, rfl⟩ := Links.replaceSucc_eq_some first
  obtain ⟨_, second, passed⟩ := Option.bind_eq_some_iff.mp passed
  obtain ⟨_, rfl⟩ := Links.replacePred_eq_some second
  cases others with
  | cons another others =>
      rw [Links.passPreds_self] at passed
      · cases passed
      · rw [length_replaceFirst, preds]
        exact Nat.one_lt_succ_succ _
  | nil =>
      rw [preds, List.mem_singleton] at entered
      subst entered
      refine ⟨preds, ?_⟩
      cases fuel with
      | zero => cases passed
      | succ fuel =>
          rw [Links.passPreds, List.getElem?_eq_none] at passed
          · cases passed
            constructor
            · have replaced := @count_replace _ _ _ _ instr instr listed
              have positive := List.count_pos_iff.mpr listed
              simp only [replaceFirst, Function.update_self]
              exact List.count_pos_iff.mp (by omega)
            · intro other differs
              exact Function.update_of_ne differs ..
          · rw [length_replaceFirst, preds]
            exact Nat.le_refl _

theorem removeBranch_not_mirrored (mirrored : cfg.links.Mirrored) {fuel : Nat} {instr : α}
    {succIndex : Nat} (removed : cfg.removeBranch fuel instr succIndex = some next) :
    ¬ next.links.Mirrored := by
  obtain ⟨succ, links, listed, _, passed, after⟩ := removeBranch_eq_some removed
  intro agree
  have atSucc := agree instr succ
  rw [after] at atSucc
  by_cases moves : succ = instr
  · subst moves
    obtain ⟨_, itself, _⟩ := passAll_self mirrored listed passed
    have positive := List.count_pos_iff.mpr itself
    simp only [Links.preds_removeAllPreds, Links.succs_removeAllPreds, if_true,
      List.count_nil] at atSucc
    exact Nat.lt_irrefl 0 (atSucc ▸ positive)
  · have all := Links.passAll_passed mirrored moves passed
    have back := all.preds succ instr
    have edge := mirrored instr succ
    have loops := mirrored instr instr
    rw [Links.succs_removeAllPreds, Links.preds_removeAllPreds, if_neg moves, all.succs,
      count_redirect_new _ moves] at atSucc
    simp only [and_self, if_true] at back
    omega

theorem length_eq_one_iff {items : List α} {item : α} (member : item ∈ items) :
    items.length = 1 ↔ items.count item = 1 ∧ ∀ other, other ≠ item → items.count other = 0 := by
  constructor
  · intro one
    obtain ⟨only, rfl⟩ := List.length_eq_one_iff.mp one
    rw [List.mem_singleton] at member
    subst member
    refine ⟨List.count_singleton_self, ?_⟩
    intro other differs
    rw [List.count_eq_zero, List.mem_singleton]
    exact differs
  · intro ⟨once, nothingElse⟩
    rw [← once, eq_comm, List.count_eq_length]
    intro other listed
    by_contra differs
    exact List.count_eq_zero.mp (nothingElse other (Ne.symm differs)) listed

/-- No predecessor list names a removed branch exactly if the branch had one successor. -/
theorem removeBranch_unlisted_iff (mirrored : cfg.links.Mirrored) {fuel : Nat} {instr : α}
    {succIndex : Nat} (removed : cfg.removeBranch fuel instr succIndex = some next) :
    (∀ other, instr ∉ next.links.preds other) ↔ (cfg.links.succs instr).length = 1 := by
  obtain ⟨succ, links, listed, _, passed, after⟩ := removeBranch_eq_some removed
  have elsewhere : (∀ other, instr ∉ next.links.preds other) ↔
      ∀ other, other ≠ instr → (links.preds other).count instr = 0 := by
    rw [after]
    refine forall_congr' fun other => ?_
    rw [Links.preds_removeAllPreds]
    by_cases same : other = instr
    · simp [same]
    · simp [same, List.count_eq_zero]
  simp only [elsewhere, length_eq_one_iff listed, mirrored instr]
  have positive := List.count_pos_iff.mpr (mirrored.mem_iff.mp listed)
  by_cases moves : succ = instr
  · subst moves
    obtain ⟨alone, _, others⟩ := passAll_self mirrored listed passed
    rw [alone, List.count_singleton_self]
    constructor
    · intro unlisted
      refine ⟨rfl, fun other differs => ?_⟩
      rw [← others other differs]
      exact unlisted other differs
    · intro ⟨_, unlisted⟩ other differs
      rw [others other differs]
      exact unlisted other differs
  · have all := Links.passAll_passed mirrored moves passed
    have atSucc := all.preds succ instr
    simp only [and_self, if_true] at atSucc
    constructor
    · intro unlisted
      have gone := unlisted succ moves
      refine ⟨by omega, fun other differs => ?_⟩
      by_cases same : other = instr
      · subst same
        omega
      · have atOther := unlisted other same
        have kept := all.preds other instr
        simp only [differs, false_and, if_false] at kept
        omega
    · intro ⟨once, unlisted⟩ other differs
      have kept := all.preds other instr
      by_cases atTarget : other = succ
      · subst atTarget
        have loops := unlisted instr (Ne.symm moves)
        omega
      · have atOther := unlisted other atTarget
        simp only [atTarget, false_and, if_false] at kept
        omega

/-! Insertion.  Each primitive adds an edge to one side or takes it from there. -/

/-- One if `p` and `s` are `pred` and `succ`. -/
def edge (pred succ p s : α) : Nat :=
  if p = pred ∧ s = succ then 1 else 0

theorem count_update {lists : α → List α} {key : α} {items : List α} (other item : α) :
    ((Function.update lists key items) other).count item =
      if other = key then items.count item else (lists other).count item := by
  rw [Function.update_apply]
  split <;> rfl

theorem count_addPred (g : LinkGraph α) (instr pred p s : α) :
    ((Links.addPred g instr pred).preds s).count p =
      (g.preds s).count p + edge pred instr p s := by
  rw [Links.addPred, count_update, edge]
  by_cases same : s = instr
  · subst same
    simp [List.count_singleton, eq_comm (a := p)]
  · simp [same]

theorem count_addSucc (g : LinkGraph α) (instr succ p s : α) :
    ((Links.addSucc g instr succ).succs p).count s =
      (g.succs p).count s + edge instr succ p s := by
  rw [Links.addSucc, count_update, edge]
  by_cases same : p = instr
  · subst same
    simp [List.count_singleton, eq_comm (a := s)]
  · simp [same]

theorem getElem?_addSucc {g : LinkGraph α} {pred item : α} {index : Nat}
    (found : (g.succs pred)[index]? = some item) (instr succ : α) :
    ((Links.addSucc g instr succ).succs pred)[index]? = some item := by
  simp only [Links.addSucc, Function.update_apply]
  split
  · rename_i same
    subst same
    obtain ⟨inside, _⟩ := List.getElem?_eq_some_iff.mp found
    rw [List.getElem?_append_left inside, found]
  · exact found

theorem count_replacePred {g links : LinkGraph α} {instr old new : α}
    (replaced : Links.replacePred g instr old new = some links) (p s : α) :
    (links.preds s).count p + edge old instr p s =
      (g.preds s).count p + edge new instr p s := by
  obtain ⟨listed, rfl⟩ := Links.replacePred_eq_some replaced
  rw [replaceFirst, count_update, edge, edge]
  by_cases same : s = instr
  · subst same
    simpa [eq_comm (a := p)] using @count_replace _ _ _ _ new p listed
  · simp [same]

theorem setSucc_eq_some {g links : LinkGraph α} {instr new old : α} {index : Nat}
    (set : Links.setSucc g instr index new = some (links, old)) :
    (g.succs instr)[index]? = some old ∧ links =
      { g with succs := Function.update g.succs instr ((g.succs instr).set index new) } := by
  obtain ⟨item, found, same⟩ := Option.map_eq_some_iff.mp set
  cases same
  exact ⟨found, rfl⟩

theorem count_setSucc {g links : LinkGraph α} {instr new old : α} {index : Nat}
    (set : Links.setSucc g instr index new = some (links, old)) (p s : α) :
    (links.succs p).count s + edge instr old p s =
      (g.succs p).count s + edge instr new p s := by
  obtain ⟨found, rfl⟩ := setSucc_eq_some set
  rw [count_update, edge, edge]
  by_cases same : p = instr
  · subst same
    obtain ⟨inside, here⟩ := List.getElem?_eq_some_iff.mp found
    have listed : old ∈ g.succs p := List.mem_of_getElem? found
    simp only [List.count_set inside, here, beq_iff_eq, true_and, if_true, eq_comm (a := s)]
    by_cases atOld : old = s
    · have positive : 0 < (g.succs p).count s := List.count_pos_iff.mpr (atOld ▸ listed)
      simp only [atOld, if_true]
      omega
    · simp only [atOld, if_false]
      omega
  · simp [same]

theorem insertInstrAsSucc_eq_some {instr newInstr : α} {succIndex : Nat}
    (inserted : cfg.insertInstrAsSucc instr succIndex newInstr = some next) :
    ∃ oldSucc entered left,
      Links.setSucc cfg.links instr succIndex newInstr = some (entered, oldSucc) ∧
      Links.replacePred (Links.addPred entered newInstr instr) oldSucc instr newInstr =
        some left ∧
      next.links = Links.addSucc left newInstr oldSucc := by
  simp only [insertInstrAsSucc, Option.bind_eq_bind] at inserted
  obtain ⟨⟨entered, oldSucc⟩, set, inserted⟩ := Option.bind_eq_some_iff.mp inserted
  obtain ⟨left, replaced, inserted⟩ := Option.bind_eq_some_iff.mp inserted
  cases inserted
  exact ⟨oldSucc, entered, left, set, replaced, rfl⟩

theorem insertInstrAsSucc_kept (mirrored : cfg.links.Mirrored) {instr newInstr : α}
    {succIndex : Nat} (inserted : cfg.insertInstrAsSucc instr succIndex newInstr = some next) :
    Kept cfg (.insertInstrAsSucc instr succIndex newInstr) next := by
  obtain ⟨oldSucc, entered, left, set, replaced, after⟩ := insertInstrAsSucc_eq_some inserted
  obtain ⟨found, put⟩ := setSucc_eq_some set
  have samePreds : entered.preds = cfg.links.preds := by rw [put]
  have sameSuccs : left.succs = entered.succs := by
    rw [(Links.replacePred_eq_some replaced).2]
    rfl
  refine ⟨fun p s => ?_, ?_, nofun⟩
  · have agree := mirrored p s
    have gone := count_setSucc set p s
    have entry := count_addPred entered newInstr instr p s
    have back := count_replacePred replaced p s
    rw [samePreds] at entry
    rw [after, count_addSucc, sameSuccs]
    change _ = (left.preds s).count p
    omega
  · intro pred index succ _ listed
    rw [after]
    apply getElem?_addSucc
    simp only [sameSuccs, put, Function.update_apply, Edit.target]
    by_cases same : pred = instr
    · subst same
      obtain ⟨inside, _⟩ := List.getElem?_eq_some_iff.mp listed
      simp only [if_true, List.getElem?_set, listed, true_and, eq_comm (a := succIndex)]
      split
      · subst index
        rw [if_pos inside]
      · rfl
    · simp [same, listed]

theorem insertInstrAsSucc_returns (mirrored : cfg.links.Mirrored) {instr newInstr : α}
    {succIndex : Nat} (inside : succIndex < (cfg.links.succs instr).length) :
    ∃ next, cfg.insertInstrAsSucc instr succIndex newInstr = some next := by
  obtain ⟨oldSucc, found⟩ : ∃ oldSucc, (cfg.links.succs instr)[succIndex]? = some oldSucc :=
    ⟨_, List.getElem?_eq_getElem inside⟩
  obtain ⟨entered, set⟩ : ∃ entered,
      Links.setSucc cfg.links instr succIndex newInstr = some (entered, oldSucc) :=
    ⟨_, by rw [Links.setSucc, found, Option.map_some]⟩
  have samePreds : entered.preds = cfg.links.preds := by rw [(setSucc_eq_some set).2]
  have listed : instr ∈ (Links.addPred entered newInstr instr).preds oldSucc := by
    rw [← List.count_pos_iff, count_addPred, samePreds]
    have before := mirrored.mem_iff.mp (List.mem_of_getElem? found)
    exact Nat.lt_of_lt_of_le (List.count_pos_iff.mpr before) (Nat.le_add_right _ _)
  simp only [insertInstrAsSucc, set, Option.bind_eq_bind, Option.bind_some,
    Links.replacePred_of_mem listed]
  exact ⟨_, rfl⟩

theorem insertInstrAsSinglePred_eq (mirrored : cfg.links.Mirrored) {instr newInstr : α}
    (other : newInstr ≠ instr) :
    ∃ next, cfg.insertInstrAsSinglePred instr newInstr = some next ∧
      next.links = Links.addSucc (passPredecessors instr newInstr
        { cfg.links with succs := fun p => redirect instr newInstr (cfg.links.succs p) })
        newInstr instr := by
  simp only [insertInstrAsSinglePred, Links.foldlM_replaceSucc mirrored other,
    Option.bind_eq_bind, Option.bind_some]
  refine ⟨_, rfl, ?_⟩
  simp only [links_registerInstr, links_passH]

theorem insertInstrAsSinglePred_kept (mirrored : cfg.links.Mirrored) {instr newInstr : α}
    (other : newInstr ≠ instr) (fresh : cfg.links.preds newInstr = [])
    (inserted : cfg.insertInstrAsSinglePred instr newInstr = some next) :
    Kept cfg (.insertInstrAsSinglePred instr newInstr) next := by
  obtain ⟨result, returned, after⟩ := insertInstrAsSinglePred_eq mirrored other
  obtain rfl : result = next := Option.some.inj (returned.symm.trans inserted)
  refine ⟨fun p s => ?_, ?_, nofun⟩
  · have agree := mirrored p s
    have moved := mirrored p instr
    have absent := mirrored p newInstr
    rw [fresh, List.count_nil] at absent
    rw [after, count_addSucc]
    change _ = ((passPredecessors instr newInstr _).preds s).count p
    rw [passPredecessors, count_update, count_update, edge]
    by_cases atInstr : s = instr
    · subst atInstr
      rw [List.count_eq_zero.mpr (not_mem_redirect _ other), if_pos rfl, List.count_singleton]
      simp [eq_comm (a := p)]
    · rw [if_neg atInstr, if_neg (by simp [atInstr])]
      by_cases atNew : s = newInstr
      · subst atNew
        rw [count_redirect_new _ other, if_pos rfl, absent, moved]
        simp
      · rw [count_redirect_of_ne _ atInstr atNew, if_neg atNew]
        exact agree
  · intro pred index succ _ listed
    rw [after]
    apply getElem?_addSucc
    exact getElem?_redirect listed

end Cfg

/-! The edits, and what each of them is to keep. -/

namespace Edit

def Proper (cfg : Cfg α) : Edit α → Prop
  | .insertInstrAsSinglePred instr newInstr =>
      newInstr ≠ instr ∧ cfg.links.preds newInstr = []
  | _ => True

/-- What an edit asserts before it writes, but for `CFG_RemoveBranch`. -/
def Asserted (cfg : Cfg α) : Edit α → Prop
  | .removeInstr instr =>
      (∃ succ, cfg.links.succs instr = [succ] ∧ succ ≠ instr) ∧ cfg.links.preds instr ≠ [] ∧
        0 ≤ cfg.arrayIndex instr ∧ cfg.arrayIndex instr < cfg.maxSizeOfList
  | .removeBranch _ _ => False
  | .insertInstrAsSucc instr succIndex _ => succIndex < (cfg.links.succs instr).length
  | .insertInstrAsSinglePred _ _ => True

end Edit

namespace Cfg

variable {cfg next : Cfg α}

theorem exec_kept (mirrored : cfg.links.Mirrored) {edit : Edit α} (proper : edit.Proper cfg)
    (other : ∀ instr succIndex, edit ≠ .removeBranch instr succIndex) {fuel : Nat}
    (done : cfg.exec fuel edit = some next) : Kept cfg edit next := by
  cases edit with
  | removeInstr instr => exact removeInstr_kept mirrored done
  | removeBranch instr succIndex => exact absurd rfl (other instr succIndex)
  | insertInstrAsSucc instr succIndex newInstr => exact insertInstrAsSucc_kept mirrored done
  | insertInstrAsSinglePred instr newInstr =>
      exact insertInstrAsSinglePred_kept mirrored proper.1 proper.2 done

theorem exec_returns (mirrored : cfg.links.Mirrored) {edit : Edit α} (proper : edit.Proper cfg)
    (asserted : edit.Asserted cfg) : ∃ fuel next, cfg.exec fuel edit = some next := by
  cases edit with
  | removeInstr instr =>
      obtain ⟨⟨succ, onlySucc, moves⟩, entered, registered⟩ := asserted
      exact removeInstr_returns mirrored onlySucc moves entered registered
  | removeBranch instr succIndex => exact asserted.elim
  | insertInstrAsSucc instr succIndex newInstr =>
      exact ⟨0, insertInstrAsSucc_returns mirrored asserted⟩
  | insertInstrAsSinglePred instr newInstr =>
      obtain ⟨next, returned, _⟩ := insertInstrAsSinglePred_eq mirrored proper.1
      exact ⟨0, next, returned⟩

/-- An edit keeps the graph consistent exactly if it is not `CFG_RemoveBranch`, and then it
returns.  After `CFG_RemoveBranch` no predecessor list names the branch exactly if the
branch had one successor. -/
theorem edit_kept_iff (mirrored : cfg.links.Mirrored) (edit : Edit α) (proper : edit.Proper cfg) :
    (∀ fuel next, cfg.exec fuel edit = some next →
      (Kept cfg edit next ↔ ∀ instr succIndex, edit ≠ .removeBranch instr succIndex)) ∧
    (edit.Asserted cfg → ∃ fuel next, cfg.exec fuel edit = some next) ∧
    (∀ instr succIndex fuel next, edit = .removeBranch instr succIndex →
      cfg.exec fuel edit = some next →
      ((∀ other, instr ∉ next.links.preds other) ↔ (cfg.links.succs instr).length = 1)) := by
  refine ⟨fun fuel next done => ⟨?_, ?_⟩, exec_returns mirrored proper, ?_⟩
  · intro kept instr succIndex same
    subst same
    exact removeBranch_not_mirrored mirrored done kept.mirrored
  · intro other
    exact exec_kept mirrored proper other done
  · intro instr succIndex fuel next same done
    subst same
    exact removeBranch_unlisted_iff mirrored done

def checked : Cfg Nat where
  links :=
    { succs := fun instr => [[1], [2, 3]].getD instr []
      preds := fun instr => [[], [0], [1], [1]].getD instr [] }
  loopHeader := fun _ => false
  hMap := fun _ => none
  needMapInfo := fun _ => false
  arrayIndex := fun instr => instr
  instrList := [some 0, some 1, some 2, some 3]
  maxSizeOfList := 1000
  numOfNodes := 4
  numOfMapNeedInstrs := 0

theorem checked_mirrored : checked.links.Mirrored := by
  intro pred succ
  match pred, succ with
  | 0, 0 | 0, 1 | 0, 2 | 0, 3 | 0, _ + 4 => simp [checked]
  | 1, 0 | 1, 1 | 1, 2 | 1, 3 | 1, _ + 4 => simp [checked]
  | _ + 2, 0 | _ + 2, 1 | _ + 2, 2 | _ + 2, 3 | _ + 2, _ + 4 => simp [checked]

/-- The trap keeps the removed branch for a predecessor. -/
theorem removed_branch_stays :
    checked.links.Mirrored ∧ ∃ next, checked.exec 1 (.removeBranch 1 1) = some next ∧
      1 ∈ next.links.preds 2 ∧ ¬ Kept checked (.removeBranch 1 1) next := by
  refine ⟨checked_mirrored, _, rfl, by decide, ?_⟩
  intro kept
  exact absurd (kept.mirrored 1 3) (by decide)

theorem edit_kept_iff_checked :
    (∀ fuel next, checked.exec fuel (.insertInstrAsSinglePred 1 4) = some next →
      (Kept checked (.insertInstrAsSinglePred 1 4) next ↔
        ∀ instr succIndex,
          Edit.insertInstrAsSinglePred 1 4 ≠ .removeBranch instr succIndex)) ∧
    (Edit.Asserted checked (.insertInstrAsSinglePred 1 4) →
      ∃ fuel next, checked.exec fuel (.insertInstrAsSinglePred 1 4) = some next) ∧
    (∀ instr succIndex fuel next,
      Edit.insertInstrAsSinglePred 1 4 = .removeBranch instr succIndex →
      checked.exec fuel (.insertInstrAsSinglePred 1 4) = some next →
      ((∀ other, instr ∉ next.links.preds other) ↔
        (checked.links.succs instr).length = 1)) :=
  edit_kept_iff checked_mirrored (.insertInstrAsSinglePred 1 4) ⟨by decide, rfl⟩

end Cfg

end LaTTe.Translator.GraphEdit
