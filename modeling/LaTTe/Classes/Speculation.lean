import LaTTe.Data.Transition
import LaTTe.Classes.Run
import Mathlib.Tactic.IntervalCases

namespace LaTTe.Classes

open LaTTe.Data

/-! Speculative inlining.  A method that no loaded class overrides is inlined behind
a nop, which becomes a branch to the dispatching code once the method is overridden. -/

def initialSetSize : Nat := 5

def CallSite.unused : CallSite := ⟨0, 0#32⟩

namespace CallSiteSet

def new : CallSiteSet where
  set := List.replicate initialSetSize .unused
  count := 0
  positive := by decide
  fits := Nat.zero_le _

def grow (css : CallSiteSet) : CallSiteSet where
  set := css.set ++ List.replicate css.set.length .unused
  count := css.count
  positive := by
    rw [List.length_append]
    exact Nat.lt_of_lt_of_le css.positive (Nat.le_add_right _ _)
  fits := by
    rw [List.length_append]
    exact Nat.le_trans css.fits (Nat.le_add_right _ _)

def reserve (css : CallSiteSet) : CallSiteSet :=
  if css.set.length ≤ css.count then css.grow else css

theorem reserve_room (css : CallSiteSet) : css.reserve.count < css.reserve.set.length := by
  have positive := css.positive
  have fits := css.fits
  unfold reserve
  split
  · simp only [grow, List.length_append, List.length_replicate]
    omega
  · omega

def add (css : CallSiteSet) (site : CallSite) : CallSiteSet where
  set := css.reserve.set.set css.reserve.count site
  count := css.reserve.count + 1
  positive := by
    rw [List.length_set]
    exact css.reserve.positive
  fits := by
    rw [List.length_set]
    exact css.reserve_room

theorem reserve_sites (css : CallSiteSet) : css.reserve.sites = css.sites := by
  unfold reserve
  split
  · exact List.take_append_of_le_length css.fits
  · rfl

theorem add_sites (css : CallSiteSet) (site : CallSite) :
    (css.add site).sites = css.sites ++ [site] := by
  have room := css.reserve_room
  rw [← css.reserve_sites, sites, sites, add, List.take_add_one, List.take_set_of_le le_rfl]
  simp [room]

end CallSiteSet

def specInline : BitVec 32 := 1#32

def sparcNop : BitVec 32 := 0x01000000#32

def addSpeculativeCallSite (vm : Vm) (method : Method) (addr : Nat)
    (target mode : BitVec 32) : Vm :=
  { vm with
    callSiteSet := Function.update vm.callSiteSet method
      (some (((vm.callSiteSet method).getD .new).add ⟨addr, target ||| mode⟩)) }

/-- The case of `SPEC_INLINE` in `CodeGen_fill_text_segment`. -/
def fillSpecInline (vm : Vm) (method : Method) (addr : Nat) (disp22 : BitVec 32) : Vm :=
  addSpeculativeCallSite { vm with text := Function.update vm.text addr sparcNop }
    method addr (disp22 <<< 2) specInline

/-- What `CodeGen_assemble_instruction` makes of an annulled branch. -/
def assembleBranch (disp22 : BitVec 32) : BitVec 32 :=
  (0xfff80000#32 &&& (baOp ||| annulBit)) ||| (0x7ffff#32 &&& disp22)

theorem target_specInline (disp22 : BitVec 32) :
    0x7ffff#32 &&& ((disp22 <<< 2 ||| specInline) >>> 2) = 0x7ffff#32 &&& disp22 := by
  apply BitVec.eq_of_getLsbD_eq
  intro i below
  rw [BitVec.getLsbD_and, BitVec.getLsbD_and]
  by_cases low : i < 19
  · have mode : specInline.getLsbD (2 + i) = false := by
      rw [specInline, BitVec.getLsbD_one, decide_eq_false (show ¬ 2 + i = 0 by omega),
        Bool.and_false]
    have inside : 2 + i < 32 := by omega
    have above : ¬ 2 + i < 2 := by omega
    rw [BitVec.getLsbD_ushiftRight, BitVec.getLsbD_or, BitVec.getLsbD_shiftLeft, mode,
      decide_eq_true inside, decide_eq_false above, Nat.add_sub_cancel_left]
    simp only [Bool.not_false, Bool.and_true, Bool.true_and, Bool.or_false]
  · have masked : (0x7ffff#32).getLsbD i = false := by
      interval_cases i <;> rfl
    rw [masked, Bool.false_and, Bool.false_and]

theorem patch_specInline (addr : Nat) (disp22 : BitVec 32) :
    CallSite.patch ⟨addr, disp22 <<< 2 ||| specInline⟩ = assembleBranch disp22 := by
  have mode : (disp22 <<< 2 ||| specInline) &&& 3#32 ≠ 0#32 := by
    intro zero
    have bit := congrArg (BitVec.getLsbD · 0) zero
    simp [specInline] at bit
  have opcode : 0xfff80000#32 &&& (baOp ||| annulBit) = baOp ||| annulBit := by decide
  unfold CallSite.patch
  simp only [mode, if_false, assembleInstr3, assembleBranch, target_specInline, opcode]
  rw [BitVec.or_assoc, BitVec.or_assoc, BitVec.or_comm annulBit]

theorem assembleBranch_ne_nop (disp22 : BitVec 32) : assembleBranch disp22 ≠ sparcNop := by
  intro same
  have bit := congrArg (BitVec.getLsbD · 29) same
  simp [assembleBranch, sparcNop, baOp, annulBit] at bit

/-! Patching. -/

theorem fixupCallSite_loop_other {sites : List CallSite} {addr : Nat}
    (apart : ∀ site ∈ sites, site.addr ≠ addr) (text : Nat → BitVec 32) :
    sites.foldl fixupCallSite text addr = text addr := by
  induction sites generalizing text with
  | nil => rfl
  | cons first rest ih =>
      rw [List.foldl_cons, ih fun site member => apart site (by simp [member])]
      exact Function.update_of_ne (apart first (by simp)).symm _ _

theorem fixupCallSite_loop_mem {sites : List CallSite} {site : CallSite}
    (member : site ∈ sites) (alone : ∀ other ∈ sites, other.addr = site.addr → other = site)
    (text : Nat → BitVec 32) :
    sites.foldl fixupCallSite text site.addr = site.patch := by
  induction sites generalizing text with
  | nil => simp at member
  | cons first rest ih =>
      by_cases later : site ∈ rest
      · exact ih later (fun other inRest => alone other (by simp [inRest])) _
      · obtain rfl : site = first := (List.mem_cons.mp member).resolve_right later
        rw [List.foldl_cons, fixupCallSite_loop_other]
        · exact Function.update_self _ _ _
        · intro other inRest same
          rw [alone other (by simp [inRest]) same] at inRest
          exact later inRest

section

variable {h : Hierarchy} {c : Nat} {vm start : Vm} {method overridden : Method}

def SitesDistinct (vm : Vm) : Prop :=
  ∀ method other, ∀ site ∈ vm.recorded method, ∀ site' ∈ vm.recorded other,
    site.addr = site'.addr → site = site'

def Patched (vm : Vm) : Prop :=
  ∀ method, vm.isOverridden method = true → ∀ site ∈ vm.recorded method,
    vm.text site.addr = site.patch

theorem markOverridden_isOverridden (other : Method) :
    (markOverridden vm method).isOverridden other = true ↔
      other = method ∨ vm.isOverridden other = true := by
  have updated : (markOverridden vm method).isOverridden other =
      Function.update vm.isOverridden method true other := rfl
  rw [updated]
  by_cases same : other = method
  · simp [same]
  · simp [same]

theorem markOverridden_text :
    (markOverridden vm method).text = (vm.recorded method).foldl fixupCallSite vm.text :=
  rfl

theorem Patched.mark (patched : Patched vm) (distinct : SitesDistinct vm) :
    Patched (markOverridden vm method) := by
  intro other isOverridden site member
  rw [markOverridden_text]
  by_cases here : ∃ site' ∈ vm.recorded method, site'.addr = site.addr
  · obtain ⟨site', member', same⟩ := here
    obtain rfl : site' = site := distinct method other site' member' site member same
    exact fixupCallSite_loop_mem member'
      (fun third inSites equal => distinct method method third inSites site' member' equal) _
  · rw [fixupCallSite_loop_other fun site' member' same => here ⟨site', member', same⟩]
    rcases (markOverridden_isOverridden other).mp isOverridden with rfl | before
    · exact absurd ⟨site, member, rfl⟩ here
    · exact patched other before site member

/-! The superclass method that a method replaces. -/

/-- `buildDispatchTable` finds the second method when it looks for what the first one
overrides. -/
def DirectlyOverrides (h : Hierarchy) (method overridden : Method) : Prop :=
  h.isInterface method.owner = false ∧ method ∈ h.methods method.owner ∧
    method.isVirtual = true ∧
    h.findAmong (h.superclasses method.owner) method.name method.signature = some overridden

def Overridden (h : Hierarchy) (loaded : Nat) (method : Method) : Prop :=
  ∃ overriding, overriding.owner < loaded ∧
    Relation.TransGen (DirectlyOverrides h) overriding method

theorem DirectlyOverrides.owner_lt (overrides : DirectlyOverrides h method overridden) :
    overridden.owner < method.owner := by
  obtain ⟨_, _, _, found⟩ := overrides
  exact h.mem_superclasses_lt (h.findAmong_eq_some found).1

theorem overridden_iff {loaded : Nat} : Overridden h loaded overridden ↔
    ∃ method, method.owner < loaded ∧ DirectlyOverrides h method overridden := by
  constructor
  · rintro ⟨first, earlier, chain⟩
    induction chain with
    | single direct => exact ⟨first, earlier, direct⟩
    | @tail middle last onward direct ih =>
        obtain ⟨method, below, above⟩ := ih
        exact ⟨middle, Nat.lt_trans above.owner_lt below, direct⟩
  · rintro ⟨method, earlier, direct⟩
    exact ⟨method, earlier, .single direct⟩

/-! Preparing a class. -/

structure Marking (h : Hierarchy) (c : Nat) (start : Vm) (done : List Method) (vm : Vm) :
    Prop where
  callSiteSet : vm.callSiteSet = start.callSiteSet
  isOverridden : ∀ overridden, vm.isOverridden overridden = true ↔
    start.isOverridden overridden = true ∨ ∃ method ∈ done, DirectlyOverrides h method overridden
  patched : Patched vm
  text : ∀ addr, vm.text addr ≠ start.text addr → ∃ method, vm.isOverridden method = true ∧
    ∃ site ∈ start.recorded method, site.addr = addr

theorem recorded_eq {next : Vm} (same : next.callSiteSet = vm.callSiteSet) :
    next.recorded = vm.recorded := by
  funext method
  unfold Vm.recorded
  rw [same]

theorem SitesDistinct.congr {next : Vm} (distinct : SitesDistinct vm)
    (same : next.callSiteSet = vm.callSiteSet) : SitesDistinct next := by
  unfold SitesDistinct
  rw [recorded_eq same]
  exact distinct

theorem Patched.congr {next : Vm} (patched : Patched vm)
    (sites : next.callSiteSet = vm.callSiteSet) (flags : next.isOverridden = vm.isOverridden)
    (text : next.text = vm.text) : Patched next := by
  unfold Patched
  rw [recorded_eq sites, flags, text]
  exact patched

theorem Marking.keep {done : List Method} {next : Vm} (marking : Marking h c start done vm)
    (nothing : ∀ overridden, ¬ DirectlyOverrides h method overridden)
    (sites : next.callSiteSet = vm.callSiteSet) (flags : next.isOverridden = vm.isOverridden)
    (text : next.text = vm.text) : Marking h c start (done ++ [method]) next := by
  refine ⟨sites.trans marking.callSiteSet, ?_, marking.patched.congr sites flags text, ?_⟩
  · intro overridden
    rw [flags, marking.isOverridden]
    constructor
    · rintro (before | ⟨other, member, direct⟩)
      · exact .inl before
      · exact .inr ⟨other, by simp [member], direct⟩
    · rintro (before | ⟨other, member, direct⟩)
      · exact .inl before
      · rcases List.mem_append.mp member with inDone | now
        · exact .inr ⟨other, inDone, direct⟩
        · rw [List.mem_singleton.mp now] at direct
          exact absurd direct (nothing overridden)
  · rw [flags, text]
    exact marking.text

theorem Marking.override {done : List Method} (marking : Marking h c start done vm)
    (distinct : SitesDistinct start) (direct : DirectlyOverrides h method overridden)
    (index : Int) : Marking h c start (done ++ [method])
      (markOverridden (vm.setIdx method index) overridden) := by
  have sites : (vm.setIdx method index).callSiteSet = start.callSiteSet := marking.callSiteSet
  have flag : ∀ other, (markOverridden (vm.setIdx method index) overridden).isOverridden other =
      true ↔ other = overridden ∨ vm.isOverridden other = true := fun other =>
    markOverridden_isOverridden other
  refine ⟨marking.callSiteSet, ?_, ?_, ?_⟩
  · intro other
    rw [flag, marking.isOverridden]
    constructor
    · rintro (rfl | before | ⟨third, member, direct'⟩)
      · exact .inr ⟨method, by simp, direct⟩
      · exact .inl before
      · exact .inr ⟨third, by simp [member], direct'⟩
    · rintro (before | ⟨third, member, direct'⟩)
      · exact .inr (.inl before)
      · rcases List.mem_append.mp member with inDone | now
        · exact .inr (.inr ⟨third, inDone, direct'⟩)
        · rw [List.mem_singleton.mp now] at direct'
          exact .inl (Option.some.inj (direct'.2.2.2.symm.trans direct.2.2.2))
  · have patched : Patched (vm.setIdx method index) := marking.patched
    exact patched.mark (distinct.congr sites)
  · intro addr changed
    by_cases here : ∃ site ∈ start.recorded overridden, site.addr = addr
    · exact ⟨overridden, (flag overridden).mpr (.inl rfl), here⟩
    · have same : (markOverridden (vm.setIdx method index) overridden).text addr =
          vm.text addr := by
        rw [markOverridden_text, recorded_eq sites]
        exact fixupCallSite_loop_other (fun site member same => here ⟨site, member, same⟩) _
      rw [same] at changed
      obtain ⟨other, isOverridden, site, member, equal⟩ := marking.text addr changed
      exact ⟨other, (flag other).mpr (.inr isOverridden), site, member, equal⟩

theorem Marking.step {done : List Method} (marking : Marking h c start done vm)
    (distinct : SitesDistinct start) (isClass : h.isInterface c = false)
    (member : method ∈ h.methods c) :
    Marking h c start (done ++ [method]) (assignIndex h c vm method) := by
  have owner := h.owner_eq c method member
  cases isVirtual : method.isVirtual with
  | false =>
      rw [assignIndex_static isVirtual]
      refine marking.keep ?_ rfl rfl rfl
      rintro overridden ⟨_, _, virtual, _⟩
      rw [isVirtual] at virtual
      contradiction
  | true =>
      cases found : h.findAmong (h.superclasses c) method.name method.signature with
      | none =>
          rw [assignIndex_new isVirtual found]
          refine marking.keep ?_ rfl rfl rfl
          rintro overridden ⟨_, _, _, result⟩
          rw [owner, found] at result
          contradiction
      | some overridden =>
          rw [assignIndex_overriding isVirtual found]
          refine marking.override distinct ⟨?_, ?_, isVirtual, ?_⟩ _
          · rw [owner]
            exact isClass
          · rw [owner]
            exact member
          · rw [owner]
            exact found

structure Marks (h : Hierarchy) (c : Nat) (vm next : Vm) : Prop where
  callSiteSet : next.callSiteSet = vm.callSiteSet
  isOverridden : ∀ overridden, next.isOverridden overridden = true ↔
    vm.isOverridden overridden = true ∨
      ∃ method, method.owner = c ∧ DirectlyOverrides h method overridden
  patched : Patched next
  text : ∀ addr, next.text addr ≠ vm.text addr → ∃ method, next.isOverridden method = true ∧
    ∃ site ∈ vm.recorded method, site.addr = addr

theorem prepare_interface_marks (isInterface : h.isInterface c = true) (patched : Patched vm) :
    Marks h c vm (numberInterface h c vm) := by
  have sites : (numberInterface h c vm).callSiteSet = vm.callSiteSet := by
    rw [numberInterface, numberInterfaceMethod_loop, raiseItSize_loop]
  have flags : (numberInterface h c vm).isOverridden = vm.isOverridden := by
    rw [numberInterface, numberInterfaceMethod_loop, raiseItSize_loop]
  have text : (numberInterface h c vm).text = vm.text := by
    rw [numberInterface, numberInterfaceMethod_loop, raiseItSize_loop]
  refine ⟨sites, ?_, patched.congr sites flags text, ?_⟩
  · intro overridden
    rw [flags]
    refine ⟨.inl, ?_⟩
    rintro (before | ⟨method, rfl, isClass, _⟩)
    · exact before
    · rw [isInterface] at isClass
      contradiction
  · intro addr changed
    rw [text] at changed
    contradiction

theorem Marking.marks (distinct : SitesDistinct vm) (patched : Patched vm)
    (isClass : h.isInterface c = false) {next : Vm}
    (sites : next.callSiteSet = vm.callSiteSet)
    (flags : next.isOverridden = ((h.methods c).foldl (assignIndex h c)
      (inheritMsize h c (inheritItSize h c vm))).isOverridden)
    (text : next.text = ((h.methods c).foldl (assignIndex h c)
      (inheritMsize h c (inheritItSize h c vm))).text) : Marks h c vm next := by
  have start : inheritMsize h c (inheritItSize h c vm) =
      { vm with
        itSize := (inheritItSize h c vm).itSize
        msize := (inheritMsize h c (inheritItSize h c vm)).msize } := by
    rw [inheritMsize_eq, inheritItSize_eq]
  have marking : Marking h c (inheritMsize h c (inheritItSize h c vm)) (h.methods c)
      ((h.methods c).foldl (assignIndex h c) (inheritMsize h c (inheritItSize h c vm))) := by
    refine foldl_prefix (Marking h c (inheritMsize h c (inheritItSize h c vm))) ?_ ?_
    · intro done method rest state split marking
      refine marking.step (distinct.congr ?_) isClass (by simp [split])
      rw [start]
    · refine ⟨rfl, by simp, ?_, fun addr changed => absurd rfl changed⟩
      rw [start]
      exact patched
  generalize (h.methods c).foldl (assignIndex h c) (inheritMsize h c (inheritItSize h c vm)) =
    assigned at flags text marking
  rw [start] at marking
  have sites' : next.callSiteSet = assigned.callSiteSet := sites.trans marking.callSiteSet.symm
  refine ⟨sites, ?_, marking.patched.congr sites' flags text, ?_⟩
  · intro overridden
    rw [flags, marking.isOverridden]
    refine or_congr Iff.rfl ⟨?_, ?_⟩
    · rintro ⟨method, member, direct⟩
      exact ⟨method, h.owner_eq c method member, direct⟩
    · rintro ⟨method, rfl, direct⟩
      exact ⟨method, direct.2.1, direct⟩
  · rw [flags, text]
    exact marking.text

theorem fillInterfaceSlot_code (items : List Method) (vm : Vm) :
    (items.foldl (fillInterfaceSlot h c) vm).callSiteSet = vm.callSiteSet ∧
      (items.foldl (fillInterfaceSlot h c) vm).isOverridden = vm.isOverridden ∧
      (items.foldl (fillInterfaceSlot h c) vm).text = vm.text := by
  induction items generalizing vm with
  | nil => exact ⟨rfl, rfl, rfl⟩
  | cons method rest ih =>
      have step : (fillInterfaceSlot h c vm method).callSiteSet = vm.callSiteSet ∧
          (fillInterfaceSlot h c vm method).isOverridden = vm.isOverridden ∧
          (fillInterfaceSlot h c vm method).text = vm.text := by
        unfold fillInterfaceSlot
        split
        · exact ⟨rfl, rfl, rfl⟩
        · split <;> exact ⟨rfl, rfl, rfl⟩
      obtain ⟨sites, flags, text⟩ := ih (fillInterfaceSlot h c vm method)
      exact ⟨sites.trans step.1, flags.trans step.2.1, text.trans step.2.2⟩

theorem prepare_marks {next : Vm} (distinct : SitesDistinct vm) (patched : Patched vm)
    (run : prepare h vm c = some next) : Marks h c vm next := by
  rw [prepare, Option.bind_eq_bind, Option.bind_eq_some_iff] at run
  obtain ⟨built, run, result⟩ := run
  cases isInterface : h.isInterface c with
  | true =>
      have built_eq : numberInterface h c vm = built := by
        simpa [buildDispatchTable, isInterface] using run
      have next_eq : built = next := by simpa [isInterface] using result
      rw [← next_eq, ← built_eq]
      exact prepare_interface_marks isInterface patched
  | false =>
      have reserved := buildDispatchTable_reserved isInterface run
      have next_eq : buildInterfaceTable h built c = next := by simpa [isInterface] using result
      rw [← next_eq, buildInterfaceTable_eq]
      obtain ⟨sites, flags, text⟩ := fillInterfaceSlot_code (interfaceMethods h c) built
      exact Marking.marks distinct patched isInterface (sites.trans reserved.callSiteSet)
        (flags.trans reserved.isOverridden) (text.trans reserved.text)

end

/-! Translation and class loading in any order. -/

structure Inlined where
  method : Method
  addr : Nat
  disp22 : BitVec 32

def Inlined.record (site : Inlined) : CallSite :=
  ⟨site.addr, site.disp22 <<< 2 ||| specInline⟩

/-- What translations and class loading work on.  `decided` lists the methods that
translations under way have decided to inline. -/
structure Translation where
  vm : Vm
  loaded : Nat
  decided : List Method
  inlined : List Inlined

inductive Event where
  | decide (method : Method)
  | emit (site : Inlined)
  | write (addr : Nat) (word : BitVec 32)
  | finish (method : Method)
  | load

inductive Step (h : Hierarchy) : Event → Translation → Translation → Prop where
  | decide {state : Translation} {method : Method}
      (candidate : state.vm.isOverridden method = false) :
      Step h (.decide method) state { state with decided := method :: state.decided }
  | emit {state : Translation} {site : Inlined} (decided : site.method ∈ state.decided)
      (fresh : ∀ other ∈ state.inlined, other.addr ≠ site.addr) :
      Step h (.emit site) state
        { state with
          vm := fillSpecInline state.vm site.method site.addr site.disp22
          inlined := site :: state.inlined }
  | write {state : Translation} {addr : Nat} {word : BitVec 32}
      (elsewhere : ∀ site ∈ state.inlined, site.addr ≠ addr) :
      Step h (.write addr word) state
        { state with vm := { state.vm with text := Function.update state.vm.text addr word } }
  | finish {state : Translation} {method : Method} :
      Step h (.finish method) state { state with decided := state.decided.erase method }
  | load {state : Translation} {vm : Vm} (prepared : prepare h state.vm state.loaded = some vm) :
      Step h .load state { state with vm := vm, loaded := state.loaded + 1 }

def Translation.Initial (state : Translation) : Prop :=
  ∃ text, state = ⟨Vm.initial text, 0, [], []⟩

def Timely (h : Hierarchy) (event : Event) (state : Translation) : Prop :=
  match event with
  | .emit site => ¬ Overridden h state.loaded site.method
  | _ => True

/-- A site that falls through has a method that no loaded class overrides, and the sites
of an overridden method branch to where they were recorded to. -/
structure SpeculationValid (h : Hierarchy) (state : Translation) : Prop where
  fallsThrough : ∀ site ∈ state.inlined, state.vm.text site.addr = sparcNop →
    ¬ Overridden h state.loaded site.method
  patched : ∀ site ∈ state.inlined, Overridden h state.loaded site.method →
    state.vm.text site.addr = assembleBranch site.disp22
  recorded : ∀ method record, record ∈ state.vm.recorded method ↔
    ∃ site ∈ state.inlined, site.method = method ∧ site.record = record

structure Sound (h : Hierarchy) (state : Translation) : Prop where
  isOverridden : ∀ method, state.vm.isOverridden method = true ↔
    Overridden h state.loaded method
  recorded : ∀ method record, record ∈ state.vm.recorded method ↔
    ∃ site ∈ state.inlined, site.method = method ∧ site.record = record
  distinct : ∀ site ∈ state.inlined, ∀ other ∈ state.inlined,
    site.addr = other.addr → site = other
  patched : Patched state.vm

section

variable {h : Hierarchy} {state next : Translation} {event : Event}

theorem Sound.sitesDistinct (sound : Sound h state) : SitesDistinct state.vm := by
  intro method other record member record' member' same
  obtain ⟨site, inlined, _, rfl⟩ := (sound.recorded method record).mp member
  obtain ⟨site', inlined', _, rfl⟩ := (sound.recorded other record').mp member'
  rw [sound.distinct site inlined site' inlined' same]

theorem Sound.valid (sound : Sound h state) : SpeculationValid h state := by
  have branch : ∀ site ∈ state.inlined, Overridden h state.loaded site.method →
      state.vm.text site.addr = assembleBranch site.disp22 := by
    intro site member overridden
    rw [← patch_specInline site.addr]
    exact sound.patched site.method ((sound.isOverridden site.method).mpr overridden) site.record
      ((sound.recorded site.method site.record).mpr ⟨site, member, rfl, rfl⟩)
  refine ⟨?_, branch, sound.recorded⟩
  intro site member nop overridden
  rw [branch site member overridden] at nop
  exact assembleBranch_ne_nop site.disp22 nop

theorem overridden_succ {loaded : Nat} {overridden : Method} :
    Overridden h (loaded + 1) overridden ↔ Overridden h loaded overridden ∨
      ∃ method, method.owner = loaded ∧ DirectlyOverrides h method overridden := by
  simp only [overridden_iff]
  constructor
  · rintro ⟨method, earlier, direct⟩
    rcases Nat.lt_succ_iff_lt_or_eq.mp earlier with before | now
    · exact .inl ⟨method, before, direct⟩
    · exact .inr ⟨method, now, direct⟩
  · rintro (⟨method, earlier, direct⟩ | ⟨method, now, direct⟩)
    · exact ⟨method, Nat.lt_succ_of_lt earlier, direct⟩
    · exact ⟨method, by omega, direct⟩

theorem not_overridden_zero (method : Method) : ¬ Overridden h 0 method := by
  rintro ⟨_, earlier, _⟩
  exact Nat.not_lt_zero _ earlier

theorem Translation.Initial.sound (initial : state.Initial) : Sound h state := by
  obtain ⟨text, rfl⟩ := initial
  refine ⟨?_, ?_, by simp, ?_⟩
  · intro method
    exact ⟨fun flag => absurd flag Bool.false_ne_true,
      fun overridden => absurd overridden (not_overridden_zero method)⟩
  · intro method record
    simp [Vm.recorded, Vm.initial]
  · intro method flag
    exact absurd flag Bool.false_ne_true

/-! Emitting a site. -/

theorem mem_recorded_add {vm : Vm} {method other : Method} {addr : Nat}
    {target mode : BitVec 32} {record : CallSite} :
    record ∈ (addSpeculativeCallSite vm method addr target mode).recorded other ↔
      record ∈ vm.recorded other ∨ other = method ∧ record = ⟨addr, target ||| mode⟩ := by
  by_cases same : other = method
  · subst same
    have sites : (addSpeculativeCallSite vm other addr target mode).recorded other =
        vm.recorded other ++ [⟨addr, target ||| mode⟩] := by
      simp only [Vm.recorded, addSpeculativeCallSite, Function.update_self,
        CallSiteSet.add_sites]
      cases vm.callSiteSet other with
      | none => rfl
      | some css => rfl
    rw [sites]
    simp
  · have sites : (addSpeculativeCallSite vm method addr target mode).recorded other =
        vm.recorded other := by
      simp only [Vm.recorded, addSpeculativeCallSite, Function.update_of_ne same]
    rw [sites]
    simp [same]

theorem emit_recorded {site : Inlined} {vm : Vm} {inlined : List Inlined}
    (recorded : ∀ method record, record ∈ vm.recorded method ↔
      ∃ site ∈ inlined, site.method = method ∧ site.record = record)
    (method : Method) (record : CallSite) :
    record ∈ (fillSpecInline vm site.method site.addr site.disp22).recorded method ↔
      ∃ other ∈ site :: inlined, other.method = method ∧ other.record = record := by
  rw [fillSpecInline, mem_recorded_add]
  have unchanged : Vm.recorded { vm with text := Function.update vm.text site.addr sparcNop } =
      vm.recorded := rfl
  rw [unchanged, recorded]
  constructor
  · rintro (⟨other, member, same, equal⟩ | ⟨rfl, rfl⟩)
    · exact ⟨other, by simp [member], same, equal⟩
    · exact ⟨site, by simp, rfl, rfl⟩
  · rintro ⟨other, member, rfl, rfl⟩
    rcases List.mem_cons.mp member with rfl | before
    · exact .inr ⟨rfl, rfl⟩
    · exact .inl ⟨other, before, rfl, rfl⟩

theorem Sound.emit (sound : Sound h state) {site : Inlined}
    (fresh : ∀ other ∈ state.inlined, other.addr ≠ site.addr)
    (timely : ¬ Overridden h state.loaded site.method) :
    Sound h { state with
      vm := fillSpecInline state.vm site.method site.addr site.disp22
      inlined := site :: state.inlined } := by
  refine ⟨sound.isOverridden, emit_recorded sound.recorded, ?_, ?_⟩
  · intro first member second member' same
    rcases List.mem_cons.mp member with rfl | before
    · rcases List.mem_cons.mp member' with rfl | before'
      · rfl
      · exact absurd same.symm (fresh second before')
    · rcases List.mem_cons.mp member' with rfl | before'
      · exact absurd same (fresh first before)
      · exact sound.distinct first before second before' same
  · intro method flag record member
    have overridden := (sound.isOverridden method).mp flag
    obtain ⟨other, inlined, rfl, rfl⟩ := (emit_recorded sound.recorded method record).mp member
    rcases List.mem_cons.mp inlined with rfl | before
    · exact absurd overridden timely
    · refine Eq.trans (Function.update_of_ne (fresh other before) _ _) ?_
      exact sound.patched other.method flag other.record
        ((sound.recorded other.method other.record).mpr ⟨other, before, rfl, rfl⟩)

/-! Loading a class. -/

theorem Sound.load (sound : Sound h state) {vm : Vm}
    (prepared : prepare h state.vm state.loaded = some vm) :
    Sound h { state with vm := vm, loaded := state.loaded + 1 } := by
  have marks := prepare_marks sound.sitesDistinct sound.patched prepared
  refine ⟨?_, ?_, sound.distinct, marks.patched⟩
  · intro method
    rw [marks.isOverridden, sound.isOverridden, overridden_succ]
  · intro method record
    rw [recorded_eq marks.callSiteSet]
    exact sound.recorded method record

theorem Sound.write (sound : Sound h state) {addr : Nat} {word : BitVec 32}
    (elsewhere : ∀ site ∈ state.inlined, site.addr ≠ addr) :
    Sound h { state with
      vm := { state.vm with text := Function.update state.vm.text addr word } } := by
  refine ⟨sound.isOverridden, sound.recorded, sound.distinct, ?_⟩
  intro method flag record member
  obtain ⟨site, inlined, _, rfl⟩ := (sound.recorded method record).mp member
  exact (Function.update_of_ne (elsewhere site inlined) _ _).trans
    (sound.patched method flag site.record member)

theorem Sound.step (sound : Sound h state) (step : Step h event state next)
    (timely : Timely h event state) : Sound h next := by
  cases step with
  | decide candidate => exact ⟨sound.isOverridden, sound.recorded, sound.distinct, sound.patched⟩
  | emit decided fresh => exact sound.emit fresh timely
  | write elsewhere => exact sound.write elsewhere
  | finish => exact ⟨sound.isOverridden, sound.recorded, sound.distinct, sound.patched⟩
  | load prepared => exact sound.load prepared

def TimelyStep (h : Hierarchy) (state next : Translation) : Prop :=
  ∃ event, Step h event state next ∧ Timely h event state

theorem sound_of_reachable (reached : Reachable Translation.Initial (TimelyStep h) state) :
    Sound h state := by
  refine reached.invariant (Sound h) (fun _ initial => initial.sound) ?_
  rintro before after sound ⟨event, step, timely⟩
  exact sound.step step timely

theorem timely_of_valid (step : Step h event state next) (valid : SpeculationValid h next) :
    Timely h event state := by
  cases step with
  | @emit _ site decided fresh =>
      have nop : (fillSpecInline state.vm site.method site.addr site.disp22).text site.addr =
          sparcNop := Function.update_self _ _ _
      exact valid.fallsThrough site List.mem_cons_self nop
  | decide _ => trivial
  | write _ => trivial
  | finish => trivial
  | load _ => trivial

theorem Sound.load_text (sound : Sound h state) (step : Step h .load state next) (addr : Nat)
    (changed : next.vm.text addr ≠ state.vm.text addr) :
    ∃ site ∈ state.inlined, site.addr = addr ∧ Overridden h next.loaded site.method := by
  cases step with
  | load prepared =>
      have marks := prepare_marks sound.sitesDistinct sound.patched prepared
      obtain ⟨method, flag, record, member, rfl⟩ := marks.text addr changed
      obtain ⟨site, inlined, rfl, rfl⟩ := (sound.recorded method record).mp member
      exact ⟨site, inlined, rfl, ((sound.load prepared).isOverridden site.method).mp flag⟩

/-- In a run whose sites are emitted in time every state is right, and the next one is
exactly when its site, if it emits one, is in time too. -/
theorem speculation_valid_iff_timely (h : Hierarchy) (state next : Translation) (event : Event)
    (reached : Reachable Translation.Initial (TimelyStep h) state)
    (step : Step h event state next) :
    SpeculationValid h state ∧ (SpeculationValid h next ↔ Timely h event state) ∧
      (event = .load → ∀ addr, next.vm.text addr ≠ state.vm.text addr →
        ∃ site ∈ state.inlined, site.addr = addr ∧
          Overridden h next.loaded site.method) := by
  have sound := sound_of_reachable reached
  refine ⟨sound.valid, ⟨timely_of_valid step, fun timely => (sound.step step timely).valid⟩, ?_⟩
  rintro rfl addr changed
  exact sound.load_text step addr changed

end

/-! A class that is loaded while the method it overrides is being inlined. -/

private def runs (owner : Nat) : List Method := [⟨owner, "run", "()V", false⟩]

private theorem runs_distinct (owner : Nat) :
    (runs owner).Pairwise fun method other => ¬ method.Matches other :=
  List.pairwise_singleton _ _

private theorem runs_counted (owner : Nat) : (runs owner).length < 2 ^ 16 :=
  show 1 < 2 ^ 16 by decide

private def overriding : Hierarchy :=
  .ofList
    [ { ClassFile.empty with
        methods := runs 0
        distinct := runs_distinct 0
        counted := runs_counted 0 },
      { ClassFile.empty with
        superclass := some 0
        methods := runs 1
        distinct := runs_distinct 1
        counted := runs_counted 1 } ]
    (by decide)

private def inlinedRun : Inlined := ⟨⟨0, "run", "()V", false⟩, 64, 12#32⟩

private theorem overriding_not_overridden : ¬ Overridden overriding 1 inlinedRun.method := by
  rw [overridden_iff]
  rintro ⟨method, earlier, direct⟩
  have lower := direct.owner_lt
  omega

private theorem overriding_overridden : Overridden overriding 2 inlinedRun.method :=
  overridden_iff.mpr
    ⟨⟨1, "run", "()V", false⟩, by decide, by decide, by decide, by decide, by decide⟩

private theorem overriding_decided : ∃ vm, Prepared overriding 1 vm ∧
    Reachable Translation.Initial (TimelyStep overriding)
      ⟨vm, 1, [inlinedRun.method], []⟩ := by
  have prepared := prepared_initial overriding fun _ => 0#32
  obtain ⟨vm, run, prepared'⟩ := prepared.prepare_class (by decide) (by decide) (by decide)
  have initial : Translation.Initial ⟨Vm.initial fun _ => 0#32, 0, [], []⟩ := ⟨_, rfl⟩
  have loaded : Reachable Translation.Initial (TimelyStep overriding) ⟨vm, 1, [], []⟩ :=
    (Reachable.start initial).tail ⟨.load, .load run, trivial⟩
  have candidate : vm.isOverridden inlinedRun.method = false := by
    rw [Bool.eq_false_iff]
    intro flag
    exact overriding_not_overridden (((sound_of_reachable loaded).isOverridden _).mp flag)
  exact ⟨vm, prepared', loaded.tail ⟨.decide inlinedRun.method, .decide candidate, trivial⟩⟩

theorem speculation_valid_iff_timely_emit : ∃ state next,
    Step overriding (.emit inlinedRun) state next ∧
    SpeculationValid overriding state ∧
    (SpeculationValid overriding next ↔ Timely overriding (.emit inlinedRun) state) ∧
    (Event.emit inlinedRun = .load → ∀ addr, next.vm.text addr ≠ state.vm.text addr →
      ∃ site ∈ state.inlined, site.addr = addr ∧
        Overridden overriding next.loaded site.method) := by
  obtain ⟨vm, _, reached⟩ := overriding_decided
  have step := @Step.emit overriding ⟨vm, 1, [inlinedRun.method], []⟩ inlinedRun (by simp) (by simp)
  exact ⟨_, _, step, speculation_valid_iff_timely overriding _ _ _ reached step⟩

/-- The decision and the emission each leave the site alone when the class is loaded in
between. -/
theorem speculation_loses_site :
    ¬ ∀ (h : Hierarchy) (state : Translation),
      Reachable Translation.Initial (fun state next => ∃ event, Step h event state next) state →
      SpeculationValid h state := by
  intro claim
  obtain ⟨vm, prepared, reached⟩ := overriding_decided
  obtain ⟨later, run, _⟩ := prepared.prepare_class (by decide) (by decide) (by decide)
  have anyReached : Reachable Translation.Initial
      (fun state next => ∃ event, Step overriding event state next)
      ⟨vm, 1, [inlinedRun.method], []⟩ :=
    reached.weaken fun _ _ ⟨event, step, _⟩ => ⟨event, step⟩
  have loaded := anyReached.tail ⟨.load, .load run⟩
  have step := @Step.emit overriding ⟨later, 2, [inlinedRun.method], []⟩ inlinedRun (by simp)
    (by simp)
  have timely := timely_of_valid step (claim overriding _ (loaded.tail ⟨_, step⟩))
  exact timely overriding_overridden

end LaTTe.Classes
