import LaTTe.Classes.Index

namespace LaTTe.Classes

open LaTTe.Data

def Enters (vm : Vm) (code : Option Code) (method : Method) : Prop :=
  ∃ slot, code = some (.trampoline method.owner slot) ∧
    (vm.tramps method.owner)[slot]? = some method

theorem Enters.isSome {vm : Vm} {code : Option Code} {method : Method}
    (enters : Enters vm code method) : code.isSome := by
  obtain ⟨slot, rfl, _⟩ := enters
  rfl

theorem Enters.fillTrampoline {vm : Vm} {code : Option Code} {method : Method}
    (enters : Enters vm code method) (c : Nat) (other : Method) :
    Enters (vm.fillTrampoline c other) code method := by
  obtain ⟨slot, rfl, filled⟩ := enters
  refine ⟨slot, rfl, ?_⟩
  by_cases here : method.owner = c
  · subst here
    rw [Vm.fillTrampoline_tramps]
    rw [List.getElem?_append_left (List.getElem?_eq_some_iff.mp filled).1]
    exact filled
  · rw [Vm.fillTrampoline_tramps_other _ _ here]
    exact filled

theorem enters_fillTrampoline (vm : Vm) {c : Nat} {method : Method} (own : method.owner = c) :
    Enters (vm.fillTrampoline c method) ((vm.fillTrampoline c method).ncode method) method := by
  subst own
  refine ⟨(vm.tramps method.owner).length, vm.fillTrampoline_ncode _ method, ?_⟩
  rw [Vm.fillTrampoline_tramps]
  simp

structure Frame (c : Nat) (vm next : Vm) : Prop where
  idx : ∀ method, method.owner ≠ c → next.idx method = vm.idx method
  ncode : ∀ method, method.owner ≠ c → next.ncode method = vm.ncode method
  msize : ∀ k, k ≠ c → next.msize k = vm.msize k
  dtable : ∀ k, k ≠ c → next.dtable k = vm.dtable k
  methodsInDtable : ∀ k, k ≠ c → next.methodsInDtable k = vm.methodsInDtable k
  tramps : ∀ k, k ≠ c → next.tramps k = vm.tramps k

theorem Frame.trans {c : Nat} {vm next last : Vm} (first : Frame c vm next)
    (second : Frame c next last) : Frame c vm last where
  idx := fun method apart => (second.idx method apart).trans (first.idx method apart)
  ncode := fun method apart => (second.ncode method apart).trans (first.ncode method apart)
  msize := fun k apart => (second.msize k apart).trans (first.msize k apart)
  dtable := fun k apart => (second.dtable k apart).trans (first.dtable k apart)
  methodsInDtable := fun k apart =>
    (second.methodsInDtable k apart).trans (first.methodsInDtable k apart)
  tramps := fun k apart => (second.tramps k apart).trans (first.tramps k apart)

structure Dispatched (h : Hierarchy) (vm : Vm) (c : Nat) : Prop where
  size : vm.msize c = (h.tableSize c : Nat)
  range : ∀ method, h.Virtual c method → 0 ≤ vm.idx method ∧ vm.idx method < vm.msize c
  index : ∀ method other, h.Virtual c method → h.Virtual c other →
    (vm.idx method = vm.idx other ↔ method.Matches other)
  entry : ∀ index, 0 ≤ index → index < vm.msize c → ∃ method, h.Virtual c method ∧
    vm.idx method = index ∧ vm.methodsInDtable c index = some method ∧
    h.findMethod c method.name method.signature = some method ∧
    vm.dtable c (methodWord index) = vm.ncode method
  static : ∀ method ∈ h.methods c, method.isVirtual = false → vm.idx method = -1
  code : ∀ method ∈ h.methods c, Enters vm (vm.ncode method) method
  tramps_nodup : (vm.tramps c).Nodup
  tramps_mem : ∀ method ∈ vm.tramps c, method ∈ h.methods c

section

variable {h : Hierarchy} {c : Nat} {vm next : Vm}

theorem Frame.enters (frame : Frame c vm next) {code : Option Code} {method : Method}
    (elsewhere : method.owner ≠ c) (enters : Enters vm code method) :
    Enters next code method := by
  obtain ⟨slot, rfl, filled⟩ := enters
  exact ⟨slot, rfl, by rw [frame.tramps _ elsewhere]; exact filled⟩

theorem virtual_owner_le {k : Nat} {method : Method} (visible : h.Virtual k method) :
    method.owner ≤ k := by
  obtain ⟨_, j, inAncestry, member⟩ := visible
  rw [h.owner_eq j method member]
  exact h.mem_ancestry_le inAncestry

/-! The inherited entries. -/

theorem inheritMethods_loop {super : Nat} (apart : super ≠ c) (count : Nat) (vm : Vm) :
    let copied := (List.range count).foldl (fun vm (index : Nat) =>
      vm.setMethodsInDtable c index (vm.methodsInDtable super index)) vm
    (∀ index : Nat, index < count →
      copied.methodsInDtable c index = vm.methodsInDtable super index) ∧
    (∀ k, k ≠ c → copied.methodsInDtable k = vm.methodsInDtable k) ∧
    copied.idx = vm.idx ∧ copied.ncode = vm.ncode ∧ copied.msize = vm.msize ∧
    copied.dtable = vm.dtable ∧ copied.tramps = vm.tramps := by
  induction count with
  | zero => exact ⟨by simp, fun _ _ => rfl, rfl, rfl, rfl, rfl, rfl⟩
  | succ count ih =>
      rw [List.range_succ, List.foldl_append]
      obtain ⟨copied, others, rest⟩ := ih
      refine ⟨?_, ?_, rest⟩
      · intro index below
        by_cases last : index = count
        · subst last
          rw [List.foldl_cons, List.foldl_nil, Vm.setMethodsInDtable_self, others super apart]
        · rw [List.foldl_cons, List.foldl_nil,
            Vm.setMethodsInDtable_index _ _ _ (by exact_mod_cast last)]
          exact copied index (by omega)
      · intro k different
        rw [List.foldl_cons, List.foldl_nil, Vm.setMethodsInDtable_other _ _ _ different]
        exact others k different

/-! Entering the methods of the class. -/

structure Installed (c : Nat) (base : Vm) (done : List Method) (vm : Vm) : Prop where
  idx : vm.idx = base.idx
  msize : vm.msize = base.msize
  dtable : vm.dtable = base.dtable
  entered : ∀ method ∈ done, 0 ≤ base.idx method →
    vm.methodsInDtable c (base.idx method) = some method
  inherited : ∀ index, (∀ method ∈ done, base.idx method ≠ index) →
    vm.methodsInDtable c index = base.methodsInDtable c index
  methods_other : ∀ k, k ≠ c → vm.methodsInDtable k = base.methodsInDtable k
  tramps_nodup : (vm.tramps c).Nodup
  tramps_mem : ∀ method ∈ vm.tramps c, method ∈ done ∧ base.idx method < 0
  tramps_other : ∀ k, k ≠ c → vm.tramps k = base.tramps k
  code : ∀ method ∈ done, base.idx method < 0 → Enters vm (vm.ncode method) method
  ncode : ∀ method, method ∉ vm.tramps c → vm.ncode method = base.ncode method

theorem Installed.step {base : Vm} {done : List Method} {method : Method}
    (installed : Installed c base done vm) (own : method.owner = c) (absent : method ∉ done)
    (distinct : ∀ other ∈ done, 0 ≤ base.idx other → base.idx other ≠ base.idx method) :
    Installed c base (done ++ [method]) (installMethod c vm method) := by
  unfold installMethod
  rw [installed.idx]
  split
  · rename_i indexed
    refine ⟨installed.idx, installed.msize, installed.dtable, ?_, ?_, ?_,
      installed.tramps_nodup, ?_, installed.tramps_other, ?_, installed.ncode⟩
    · intro other member low
      rcases List.mem_append.mp member with before | now
      · rw [Vm.setMethodsInDtable_index _ _ _ (distinct other before low)]
        exact installed.entered other before low
      · rw [List.mem_singleton.mp now, Vm.setMethodsInDtable_self]
    · intro index unused
      rw [Vm.setMethodsInDtable_index _ _ _ (Ne.symm (unused method (by simp)))]
      exact installed.inherited index fun other before => unused other (by simp [before])
    · intro k different
      rw [Vm.setMethodsInDtable_other _ _ _ different]
      exact installed.methods_other k different
    · intro other filled
      obtain ⟨before, negative⟩ := installed.tramps_mem other filled
      exact ⟨by simp [before], negative⟩
    · intro other member negative
      rcases List.mem_append.mp member with before | now
      · exact installed.code other before negative
      · rw [List.mem_singleton.mp now] at negative
        omega
  · rename_i notIndexed
    have negative : base.idx method < 0 := by omega
    refine ⟨installed.idx, installed.msize, installed.dtable, ?_, ?_,
      installed.methods_other, ?_, ?_, ?_, ?_, ?_⟩
    · intro other member low
      rcases List.mem_append.mp member with before | now
      · exact installed.entered other before low
      · rw [List.mem_singleton.mp now] at low
        omega
    · exact fun index unused =>
        installed.inherited index fun other before => unused other (by simp [before])
    · rw [Vm.fillTrampoline_tramps]
      refine List.Nodup.append installed.tramps_nodup (List.nodup_singleton _) ?_
      intro other filled now
      rw [List.mem_singleton.mp now] at filled
      exact absent (installed.tramps_mem method filled).1
    · intro other filled
      rw [Vm.fillTrampoline_tramps] at filled
      rcases List.mem_append.mp filled with before | now
      · obtain ⟨member, low⟩ := installed.tramps_mem other before
        exact ⟨by simp [member], low⟩
      · rw [List.mem_singleton.mp now]
        exact ⟨by simp, negative⟩
    · intro k different
      rw [Vm.fillTrampoline_tramps_other _ _ different]
      exact installed.tramps_other k different
    · intro other member low
      by_cases same : other = method
      · rw [same]
        exact enters_fillTrampoline vm own
      · rcases List.mem_append.mp member with before | now
        · rw [Vm.fillTrampoline_ncode_other _ _ same]
          exact (installed.code other before low).fillTrampoline c method
        · exact absurd (List.mem_singleton.mp now) same
    · intro other notFilled
      rw [Vm.fillTrampoline_tramps, List.mem_append, not_or] at notFilled
      rw [Vm.fillTrampoline_ncode_other _ _ (by simpa using notFilled.2)]
      exact installed.ncode other notFilled.1

/-! Filling the dispatch table. -/

structure Filled (h : Hierarchy) (c : Nat) (base : Vm) (done : List Nat) (vm : Vm) : Prop where
  idx : vm.idx = base.idx
  msize : vm.msize = base.msize
  methodsInDtable : vm.methodsInDtable = base.methodsInDtable
  slot : ∀ index ∈ done, ∀ method, base.methodsInDtable c (index : Nat) = some method →
    vm.dtable c (methodWord index) = vm.ncode method ∧ (vm.ncode method).isSome
  dtable_other : ∀ k, k ≠ c → vm.dtable k = base.dtable k
  tramps_nodup : (vm.tramps c).Nodup
  tramps_mem : ∀ method ∈ vm.tramps c, method ∈ h.methods c ∧ (vm.ncode method).isSome
  tramps_other : ∀ k, k ≠ c → vm.tramps k = base.tramps k
  code : ∀ method ∈ h.methods c, (vm.ncode method).isSome → Enters vm (vm.ncode method) method
  kept : ∀ method, method ∉ h.methods c ∨ (base.ncode method).isSome →
    vm.ncode method = base.ncode method

theorem methodWord_injective {index other : Nat}
    (same : methodWord (index : Int) = methodWord (other : Int)) : index = other := by
  unfold methodWord at same
  omega

theorem Filled.step {base : Vm} {done : List Nat} {index : Nat} {method : Method}
    (filled : Filled h c base done vm) (absent : index ∉ done)
    (entry : base.methodsInDtable c (index : Nat) = some method)
    (known : (base.ncode method).isSome ∨ method ∈ h.methods c) :
    ∃ next, fillSlot c vm index = some next ∧ Filled h c base (done ++ [index]) next := by
  have entry' : vm.methodsInDtable c (index : Nat) = some method := by
    rw [filled.methodsInDtable, entry]
  have apart : ∀ other ∈ done, methodWord ((other : Nat) : Int) ≠ methodWord (index : Int) := by
    intro other member same
    rw [methodWord_injective same] at member
    exact absent member
  cases code : vm.ncode method with
  | some existing =>
      refine ⟨vm.setDtable c (methodWord index) (some existing), ?_, ?_⟩
      · rw [fillSlot, entry']
        simp only [Option.bind_eq_bind, Option.bind_some, code]
      refine ⟨filled.idx, filled.msize, filled.methodsInDtable, ?_, ?_, filled.tramps_nodup,
        filled.tramps_mem, filled.tramps_other, filled.code, filled.kept⟩
      · intro other member found at_other
        rcases List.mem_append.mp member with before | now
        · rw [Vm.setDtable_word _ _ _ (apart other before)]
          exact filled.slot other before found at_other
        · rw [List.mem_singleton.mp now] at at_other ⊢
          obtain rfl : method = found := Option.some.inj (entry.symm.trans at_other)
          rw [Vm.setDtable_self]
          exact ⟨code.symm, by rw [show (vm.setDtable c _ _).ncode = vm.ncode from rfl, code]; rfl⟩
      · intro k different
        rw [Vm.setDtable_other _ _ _ different]
        exact filled.dtable_other k different
  | none =>
      have own : method ∈ h.methods c := by
        rcases known with before | own
        · rw [← filled.kept method (.inr before), code] at before
          contradiction
        · exact own
      have owner := h.owner_eq c method own
      have unfilled : method ∉ vm.tramps c := by
        intro member
        have isSome := (filled.tramps_mem method member).2
        rw [code] at isSome
        contradiction
      have fresh : ¬(base.ncode method).isSome := by
        intro before
        rw [← filled.kept method (.inr before), code] at before
        contradiction
      have others : ∀ other, (vm.ncode other).isSome →
          (vm.fillTrampoline c method).ncode other = vm.ncode other := by
        intro other isSome
        apply Vm.fillTrampoline_ncode_other
        rintro rfl
        rw [code] at isSome
        contradiction
      refine ⟨(vm.fillTrampoline c method).setDtable c (methodWord index)
        ((vm.fillTrampoline c method).ncode method), ?_, ?_⟩
      · rw [fillSlot, entry']
        simp only [Option.bind_eq_bind, Option.bind_some, code]
      refine ⟨filled.idx, filled.msize, filled.methodsInDtable, ?_, ?_, ?_, ?_, ?_, ?_, ?_⟩
      · intro other member found at_other
        rcases List.mem_append.mp member with before | now
        · obtain ⟨slot, isSome⟩ := filled.slot other before found at_other
          rw [Vm.setDtable_word _ _ _ (apart other before)]
          refine ⟨slot.trans (others found isSome).symm, ?_⟩
          exact (congrArg Option.isSome (others found isSome)).trans isSome
        · rw [List.mem_singleton.mp now] at at_other ⊢
          obtain rfl : method = found := Option.some.inj (entry.symm.trans at_other)
          rw [Vm.setDtable_self]
          exact ⟨rfl, (enters_fillTrampoline vm owner).isSome⟩
      · intro k different
        rw [Vm.setDtable_other _ _ _ different]
        exact filled.dtable_other k different
      · change ((vm.fillTrampoline c method).tramps c).Nodup
        rw [Vm.fillTrampoline_tramps]
        refine List.Nodup.append filled.tramps_nodup (List.nodup_singleton _) ?_
        intro other member now
        rw [List.mem_singleton.mp now] at member
        exact unfilled member
      · intro other member
        change other ∈ (vm.fillTrampoline c method).tramps c at member
        rw [Vm.fillTrampoline_tramps] at member
        rcases List.mem_append.mp member with before | now
        · obtain ⟨inClass, isSome⟩ := filled.tramps_mem other before
          exact ⟨inClass, (congrArg Option.isSome (others other isSome)).trans isSome⟩
        · rw [List.mem_singleton.mp now]
          exact ⟨own, (enters_fillTrampoline vm owner).isSome⟩
      · intro k different
        change (vm.fillTrampoline c method).tramps k = _
        rw [Vm.fillTrampoline_tramps_other _ _ different]
        exact filled.tramps_other k different
      · intro other member isSome
        change Enters (vm.fillTrampoline c method) ((vm.fillTrampoline c method).ncode other) other
        by_cases same : other = method
        · rw [same]
          exact enters_fillTrampoline vm owner
        · change ((vm.fillTrampoline c method).ncode other).isSome at isSome
          rw [Vm.fillTrampoline_ncode_other _ _ same] at isSome ⊢
          exact (filled.code other member isSome).fillTrampoline c method
      · intro other outside
        have different : other ≠ method := by
          rintro rfl
          rcases outside with notOwn | before
          · exact notOwn own
          · exact fresh before
        exact (Vm.fillTrampoline_ncode_other _ _ different).trans (filled.kept other outside)

theorem fillSlot_loop {base : Vm} (count : Nat)
    (entries : ∀ index : Nat, index < count → ∃ method,
      base.methodsInDtable c index = some method ∧
        ((base.ncode method).isSome ∨ method ∈ h.methods c))
    (initially : Filled h c base [] base) :
    ∃ filled, (List.range count).foldlM (fillSlot c) base = some filled ∧
      Filled h c base (List.range count) filled := by
  refine foldlM_prefix (Filled h c base) ?_ initially
  intro done index rest vm split filled
  have member : index ∈ List.range count := by simp [split]
  obtain ⟨method, entry, known⟩ := entries index (List.mem_range.mp member)
  refine filled.step ?_ entry known
  have nodup := List.nodup_range (n := count)
  rw [split, List.nodup_append] at nodup
  intro before
  exact nodup.2.2 index before index List.mem_cons_self rfl

/-! The whole of `buildDispatchTable`. -/

theorem raiseItSize_loop (interfaces : List Nat) (vm : Vm) :
    interfaces.foldl (raiseItSize c) vm =
      { vm with itSize := (interfaces.foldl (raiseItSize c) vm).itSize } := by
  induction interfaces generalizing vm with
  | nil => rfl
  | cons i rest ih =>
      rw [List.foldl_cons, ih]
      unfold raiseItSize
      split <;> rfl

theorem inheritItSize_eq (vm : Vm) :
    inheritItSize h c vm = { vm with itSize := (inheritItSize h c vm).itSize } := by
  unfold inheritItSize
  rw [raiseItSize_loop]
  split <;> rfl

theorem inheritMsize_eq (vm : Vm) :
    inheritMsize h c vm = { vm with msize := (inheritMsize h c vm).msize } := by
  unfold inheritMsize
  split <;> rfl

theorem inheritMsize_other (vm : Vm) {k : Nat} (apart : k ≠ c) :
    (inheritMsize h c vm).msize k = vm.msize k := by
  unfold inheritMsize
  split <;> exact Vm.setMsize_other _ _ apart

/-- Before the loop the known methods are the inherited ones. -/
theorem assigned_start (fits : h.tableSize c < 2 ^ 15)
    (above : ∀ k ∈ h.superclasses c, Dispatched h vm k) (itSize : Nat → Int) :
    Assigned h c (inheritMsize h c { vm with itSize := itSize }) []
      (inheritMsize h c { vm with itSize := itSize }) := by
  have known : ∀ method, Known h c [] method ↔ h.Inherited c method := by
    simp [Known]
  have idx_eq : (inheritMsize h c { vm with itSize := itSize }).idx = vm.idx := by
    rw [inheritMsize_eq]
  cases super : h.superclass c with
  | none =>
      have size : (inheritMsize h c { vm with itSize := itSize }).msize c = 0 := by
        rw [inheritMsize, super]
        exact (Vm.setMsize_self _ _ _).trans (toShort_of_lt (by decide) (by decide))
      have nothing : ∀ method, ¬ Known h c [] method := fun method =>
        (known method).not.mpr (h.not_inherited_of_none super method)
      refine ⟨?_, ?_, ?_, ?_, by simp, fun _ _ => rfl, fun _ _ => rfl,
        ⟨rfl, rfl, rfl, rfl, rfl, rfl, rfl, rfl⟩⟩
      · rw [size, h.superclasses_of_none super]
        rfl
      · exact fun method isKnown => absurd isKnown (nothing method)
      · exact fun method _ isKnown => absurd isKnown (nothing method)
      · intro index low high
        omega
  | some first =>
      have member : first ∈ h.superclasses c := by
        rw [h.superclasses_of_some super]
        exact h.mem_ancestry_self first
      have dispatched := above first member
      have small : h.tableSize first < 2 ^ 15 := by
        rw [h.tableSize_of_some super] at fits
        omega
      have size_first := dispatched.size
      have isShort : toShort (vm.msize first) = vm.msize first :=
        toShort_of_lt (by omega) (by omega)
      have size : (inheritMsize h c { vm with itSize := itSize }).msize c = vm.msize first := by
        rw [inheritMsize, super]
        exact (Vm.setMsize_self _ _ _).trans isShort
      have virtual : ∀ method, Known h c [] method ↔ h.Virtual first method := fun method =>
        (known method).trans (h.inherited_iff_of_some super method)
      refine ⟨?_, ?_, ?_, ?_, by simp, fun _ _ => rfl, fun _ _ => rfl,
        ⟨rfl, rfl, rfl, rfl, rfl, rfl, rfl, rfl⟩⟩
      · rw [size, size_first, h.superclasses_of_some super]
        rfl
      · intro method isKnown
        rw [size, idx_eq]
        exact dispatched.range method ((virtual method).mp isKnown)
      · intro method other isKnown isKnown'
        rw [idx_eq]
        exact dispatched.index method other ((virtual method).mp isKnown)
          ((virtual other).mp isKnown')
      · intro index low high
        rw [size] at high
        obtain ⟨method, visible, at_index, _⟩ := dispatched.entry index low high
        exact ⟨method, (virtual method).mpr visible, by rw [idx_eq, at_index]⟩

structure Inherits (h : Hierarchy) (c : Nat) (vm base : Vm) : Prop where
  idx : base.idx = vm.idx
  msize : base.msize = vm.msize
  ncode : base.ncode = vm.ncode
  tramps : base.tramps c = []
  entry : ∀ super, h.superclass c = some super → ∀ index : Nat, index < (vm.msize super).toNat →
    base.methodsInDtable c index = vm.methodsInDtable super index
  dtable_other : ∀ k, k ≠ c → base.dtable k = vm.dtable k
  methods_other : ∀ k, k ≠ c → base.methodsInDtable k = vm.methodsInDtable k
  tramps_other : ∀ k, k ≠ c → base.tramps k = vm.tramps k

theorem inheritMethods_spec (vm : Vm) :
    Inherits h c vm (inheritMethods h c (clearTables c vm)) := by
  have cleared : ∀ k, k ≠ c → (clearTables c vm).methodsInDtable k = vm.methodsInDtable k :=
    fun k apart => Function.update_of_ne apart _ _
  have dtable_other : ∀ k, k ≠ c → (clearTables c vm).dtable k = vm.dtable k :=
    fun k apart => Function.update_of_ne apart _ _
  have tramps_other : ∀ k, k ≠ c → (clearTables c vm).tramps k = vm.tramps k :=
    fun k apart => Function.update_of_ne apart _ _
  have empty : (clearTables c vm).tramps c = [] := Function.update_self _ _ _
  unfold inheritMethods
  cases super : h.superclass c with
  | none =>
      exact ⟨rfl, rfl, rfl, empty, by simp [super], dtable_other, cleared, tramps_other⟩
  | some first =>
      have apart : first ≠ c := Nat.ne_of_lt (h.superclass_lt c first super)
      obtain ⟨copied, others, idx, ncode, msize, dtable, tramps⟩ :=
        inheritMethods_loop apart ((clearTables c vm).msize first).toNat (clearTables c vm)
      refine ⟨idx, msize, ncode, ?_, ?_, ?_, ?_, ?_⟩
      · rw [tramps, empty]
      · intro other equal index below
        obtain rfl : first = other := Option.some.inj (super.symm.trans equal)
        rw [copied index below, cleared first apart]
      · intro k different
        rw [dtable]
        exact dtable_other k different
      · intro k different
        rw [others k different, cleared k different]
      · intro k different
        rw [tramps]
        exact tramps_other k different

/-- Which method an entry of the table holds once the methods are entered. -/
theorem entry_installed {start assigned base installed : Vm}
    (clash : h.NoClash c)
    (indices : Assigned h c start (h.methods c) assigned)
    (inherits : Inherits h c assigned base)
    (done : Installed c base (h.methods c) installed)
    (above : ∀ super, h.superclass c = some super → Dispatched h assigned super)
    {index : Int} (low : 0 ≤ index) (high : index < assigned.msize c) :
    ∃ method, h.Virtual c method ∧ assigned.idx method = index ∧
      installed.methodsInDtable c index = some method ∧
      h.findMethod c method.name method.signature = some method := by
  have known : ∀ method, h.Virtual c method → Known h c (h.methods c) method := by
    intro method visible
    rcases h.virtual_cases visible with own | inherited
    · exact .inr own
    · exact .inl inherited
  by_cases own : ∃ method ∈ h.methods c, assigned.idx method = index
  · obtain ⟨method, member, at_index⟩ := own
    have isVirtual : method.isVirtual = true := by
      by_contra notVirtual
      have := indices.static method member (by simpa using notVirtual)
      omega
    refine ⟨method, h.virtual_of_mem isVirtual member, at_index, ?_, h.findMethod_of_mem member⟩
    have entered := done.entered method member (by rw [inherits.idx]; omega)
    rwa [inherits.idx, at_index] at entered
  · have unused : ∀ method ∈ h.methods c, base.idx method ≠ index := by
      intro method member at_index
      rw [inherits.idx] at at_index
      exact own ⟨method, member, at_index⟩
    obtain ⟨first, isKnown, at_index⟩ := indices.onto index low high
    rcases isKnown with inherited | ⟨_, member⟩
    · cases super : h.superclass c with
      | none => exact absurd inherited (h.not_inherited_of_none super first)
      | some parent =>
          have dispatched := above parent super
          have visible := (h.inherited_iff_of_some super first).mp inherited
          have inRange := dispatched.range first visible
          rw [at_index] at inRange
          obtain ⟨method, visible', at_index', entry, found, _⟩ :=
            dispatched.entry index low inRange.2
          have inherited' := (h.inherited_iff_of_some super method).mpr visible'
          refine ⟨method, h.virtual_of_inherited inherited', at_index', ?_, ?_⟩
          · rw [done.inherited index unused]
            have copied := inherits.entry parent super index.toNat (by omega)
            rw [Int.toNat_of_nonneg low] at copied
            rw [copied, entry]
          · -- an own method of the same name would have this index
            rw [h.findMethod_of_not_mem, h.superclasses_of_some super]
            · exact found
            · intro other member sameNames
              have matching : other.Matches method := sameNames
              obtain ⟨isVirtual, k, inSuper, inherited⟩ := inherited'
              have isVirtual' : other.isVirtual = true := by
                have sameStatic := clash other member k inSuper method inherited matching
                rw [Method.isVirtual_iff] at isVirtual ⊢
                rw [sameStatic, matching.1]
                exact isVirtual
              have equal := (indices.index other method (.inr ⟨isVirtual', member⟩)
                (known method (h.virtual_of_inherited ⟨isVirtual, k, inSuper, inherited⟩))).mpr
                matching
              exact own ⟨other, member, equal.trans at_index'⟩
    · exact absurd ⟨first, member, at_index⟩ own

/-- Nothing that the description of a table mentions belongs to a later class. -/
theorem Dispatched.frame {k : Nat} (frame : Frame c vm next) (earlier : k < c)
    (dispatched : Dispatched h vm k) : Dispatched h next k := by
  have apart : k ≠ c := Nat.ne_of_lt earlier
  have idx : ∀ method, h.Virtual k method → next.idx method = vm.idx method := by
    intro method visible
    exact frame.idx method (Nat.ne_of_lt (Nat.lt_of_le_of_lt (virtual_owner_le visible) earlier))
  have ncode : ∀ method, h.Virtual k method → next.ncode method = vm.ncode method := by
    intro method visible
    exact frame.ncode method (Nat.ne_of_lt (Nat.lt_of_le_of_lt (virtual_owner_le visible) earlier))
  have owner : ∀ method ∈ h.methods k, method.owner ≠ c := by
    intro method member
    rw [h.owner_eq k method member]
    exact apart
  refine ⟨?_, ?_, ?_, ?_, ?_, ?_, ?_, ?_⟩
  · rw [frame.msize k apart, dispatched.size]
  · intro method visible
    rw [idx method visible, frame.msize k apart]
    exact dispatched.range method visible
  · intro method other visible visible'
    rw [idx method visible, idx other visible']
    exact dispatched.index method other visible visible'
  · intro index low high
    rw [frame.msize k apart] at high
    obtain ⟨method, visible, at_index, entry, found, slot⟩ := dispatched.entry index low high
    refine ⟨method, visible, ?_, ?_, found, ?_⟩
    · rw [idx method visible, at_index]
    · rw [frame.methodsInDtable k apart, entry]
    · rw [frame.dtable k apart, ncode method visible, slot]
  · intro method member static
    rw [frame.idx method (owner method member)]
    exact dispatched.static method member static
  · intro method member
    rw [frame.ncode method (owner method member)]
    exact frame.enters (owner method member) (dispatched.code method member)
  · rw [frame.tramps k apart]
    exact dispatched.tramps_nodup
  · rw [frame.tramps k apart]
    exact dispatched.tramps_mem

theorem installMethod_loop {start assigned base : Vm}
    (indices : Assigned h c start (h.methods c) assigned)
    (inherits : Inherits h c assigned base) :
    Installed c base (h.methods c) ((h.methods c).foldl (installMethod c) base) := by
  refine foldl_prefix (Installed c base) ?_ ?_
  · intro done method rest vm split installed
    have member : method ∈ h.methods c := by simp [split]
    have absent := absent_of_split split
    refine installed.step (h.owner_eq c method member) absent ?_
    intro other before low same
    rw [inherits.idx] at low same
    have member' : other ∈ h.methods c := by simp [split, before]
    have isVirtual : ∀ own ∈ h.methods c, 0 ≤ assigned.idx own → own.isVirtual = true := by
      intro own inClass indexed
      by_contra notVirtual
      have := indices.static own inClass (by simpa using notVirtual)
      omega
    have matching := (indices.index other method (.inr ⟨isVirtual other member' low, member'⟩)
      (.inr ⟨isVirtual method member (same ▸ low), member⟩)).mp same
    rw [h.distinct_methods member' member matching] at before
    exact absent before
  · refine ⟨rfl, rfl, rfl, by simp, fun _ _ => rfl, fun _ _ => rfl, ?_, ?_, fun _ _ => rfl,
      by simp, fun _ _ => rfl⟩
    · rw [inherits.tramps]
      exact List.nodup_nil
    · rw [inherits.tramps]
      simp

theorem buildDispatchTable_class (notInterface : h.isInterface c = false)
    {assigned installed filled : Vm}
    (indices : (h.methods c).foldl (assignIndex h c)
      (inheritMsize h c (inheritItSize h c vm)) = assigned)
    (low : 0 ≤ assigned.msize c)
    (entered : (h.methods c).foldl (installMethod c)
      (inheritMethods h c (clearTables c assigned)) = installed)
    (slots : (List.range (installed.msize c).toNat).foldlM (fillSlot c) installed = some filled)
    (defined : undefinedMethod h c filled = false) :
    buildDispatchTable h vm c = some filled := by
  unfold buildDispatchTable allocateTables
  simp only [notInterface, indices, if_neg (Int.not_lt.mpr low), entered, slots, defined,
    Bool.false_eq_true, if_false, Option.bind_eq_bind, Option.bind_some]

theorem frame_inheritMsize (vm : Vm) : Frame c vm (inheritMsize h c (inheritItSize h c vm)) := by
  constructor
  case msize =>
    intro k apart
    rw [inheritMsize_other _ apart, inheritItSize_eq]
  all_goals
    intro _ _
    rw [inheritMsize_eq, inheritItSize_eq]

theorem Assigned.frame_of {start : Vm} {done : List Method}
    (assigned : Assigned h c start done vm) (own : ∀ method ∈ done, method.owner = c) :
    Frame c start vm where
  idx method apart := assigned.idx_eq method fun member => apart (own method member)
  ncode method _ := congrFun assigned.frame.ncode method
  msize := assigned.msize_eq
  dtable k _ := congrFun assigned.frame.dtable k
  methodsInDtable k _ := congrFun assigned.frame.methodsInDtable k
  tramps k _ := congrFun assigned.frame.tramps k

theorem Installed.filled {base : Vm} (installed : Installed c base (h.methods c) vm)
    (fresh : ∀ method ∈ h.methods c, base.ncode method = none) : Filled h c vm [] vm := by
  refine ⟨rfl, rfl, rfl, by simp, fun _ _ => rfl, installed.tramps_nodup, ?_,
    fun _ _ => rfl, ?_, fun _ _ => rfl⟩
  · intro method filled
    obtain ⟨member, negative⟩ := installed.tramps_mem method filled
    exact ⟨member, (installed.code method member negative).isSome⟩
  · intro method member isSome
    by_cases negative : base.idx method < 0
    · exact installed.code method member negative
    · have notFilled : method ∉ vm.tramps c := fun filled =>
        negative (installed.tramps_mem method filled).2
      rw [installed.ncode method notFilled, fresh method member] at isSome
      contradiction

theorem Filled.frame {base entered built : Vm} {done : List Nat}
    (filled : Filled h c entered done built)
    (installed : Installed c base (h.methods c) entered) (inherits : Inherits h c vm base) :
    Frame c vm built where
  idx method _ := by rw [filled.idx, installed.idx, inherits.idx]
  ncode method apart := by
    have notOwn : method ∉ h.methods c := fun member => apart (h.owner_eq c method member)
    have notFilled : method ∉ entered.tramps c := fun member =>
      notOwn (installed.tramps_mem method member).1
    rw [filled.kept method (.inl notOwn), installed.ncode method notFilled, inherits.ncode]
  msize k _ := by rw [filled.msize, installed.msize, inherits.msize]
  dtable k apart := by
    rw [filled.dtable_other k apart, installed.dtable, inherits.dtable_other k apart]
  methodsInDtable k apart := by
    rw [filled.methodsInDtable, installed.methods_other k apart, inherits.methods_other k apart]
  tramps k apart := by
    rw [filled.tramps_other k apart, installed.tramps_other k apart,
      inherits.tramps_other k apart]

theorem buildDispatchTable_spec (notInterface : h.isInterface c = false)
    (clash : h.NoClash c) (fits : h.tableSize c < 2 ^ 15)
    (above : ∀ k ∈ h.superclasses c, Dispatched h vm k)
    (fresh : ∀ method ∈ h.methods c, vm.ncode method = none) :
    ∃ built, buildDispatchTable h vm c = some built ∧ Dispatched h built c ∧
      Frame c vm built := by
  have start := assigned_start fits above (inheritItSize h c vm).itSize
  rw [← inheritItSize_eq] at start
  have indices := assignIndex_loop clash fits start
  have sized_ncode : (inheritMsize h c (inheritItSize h c vm)).ncode = vm.ncode := by
    rw [inheritMsize_eq, inheritItSize_eq]
  have sized_frame := frame_inheritMsize (h := h) (c := c) vm
  generalize eqSized : inheritMsize h c (inheritItSize h c vm) = sized at *
  generalize eqAssigned : (h.methods c).foldl (assignIndex h c) sized = assigned at *
  have assigned_frame := sized_frame.trans (indices.frame_of (h.owner_eq c))
  have inherits := inheritMethods_spec (h := h) (c := c) assigned
  generalize eqBase : inheritMethods h c (clearTables c assigned) = base at *
  have installed := installMethod_loop indices inherits
  generalize eqInstalled : (h.methods c).foldl (installMethod c) base = entered at *
  have base_ncode : base.ncode = vm.ncode := by
    rw [inherits.ncode, indices.frame.ncode, sized_ncode]
  have base_msize : entered.msize = assigned.msize := by
    rw [installed.msize, inherits.msize]
  have parents : ∀ super, h.superclass c = some super → Dispatched h assigned super := by
    intro super isSuper
    have member : super ∈ h.superclasses c := by
      rw [h.superclasses_of_some isSuper]
      exact h.mem_ancestry_self super
    exact (above super member).frame assigned_frame (h.superclass_lt c super isSuper)
  have entries : ∀ index : Int, 0 ≤ index → index < assigned.msize c →
      ∃ method, h.Virtual c method ∧ assigned.idx method = index ∧
        entered.methodsInDtable c index = some method ∧
        h.findMethod c method.name method.signature = some method :=
    fun index low high => entry_installed clash indices inherits installed parents low high
  -- an inherited method has its trampoline since its own class was prepared
  have known : ∀ method, h.Virtual c method →
      (entered.ncode method).isSome ∨ method ∈ h.methods c := by
    intro method visible
    rcases h.virtual_cases visible with ⟨_, own⟩ | inherited
    · exact .inr own
    · obtain ⟨_, k, inSuper, member⟩ := inherited
      refine .inl ?_
      have notOwn : method ∉ entered.tramps c := by
        intro filled
        have inClass := (installed.tramps_mem method filled).1
        have := h.mem_superclasses_lt inSuper
        rw [← h.owner_eq k method member, h.owner_eq c method inClass] at this
        omega
      rw [installed.ncode method notOwn, base_ncode]
      exact ((above k inSuper).code method member).isSome
  have initially : Filled h c entered [] entered :=
    installed.filled fun method member => by rw [base_ncode, fresh method member]
  obtain ⟨built, slots, filled⟩ := fillSlot_loop (entered.msize c).toNat
    (fun index below => by
      obtain ⟨method, visible, _, entry, _⟩ := entries index (by omega)
        (by rw [← base_msize]; omega)
      exact ⟨method, entry, known method visible⟩) initially
  have built_idx : built.idx = assigned.idx := by
    rw [filled.idx, installed.idx, inherits.idx]
  have built_msize : built.msize = assigned.msize := by
    rw [filled.msize, base_msize]
  have slot_of : ∀ index : Int, 0 ≤ index → index < assigned.msize c → ∀ method,
      entered.methodsInDtable c index = some method →
      built.dtable c (methodWord index) = built.ncode method ∧ (built.ncode method).isSome := by
    intro index low high method entry
    have inRange : index.toNat ∈ List.range (entered.msize c).toNat := by
      rw [List.mem_range, base_msize]
      omega
    have result := filled.slot index.toNat inRange method
    rw [Int.toNat_of_nonneg low] at result
    exact result entry
  have defined : undefinedMethod h c built = false := by
    unfold undefinedMethod
    rw [Bool.and_eq_false_iff]
    refine .inr (List.any_eq_false.mpr ?_)
    intro index inRange
    rw [List.mem_range, built_msize] at inRange
    obtain ⟨method, _, _, entry, _⟩ := entries index (by omega) (by omega)
    obtain ⟨slot, isSome⟩ := slot_of index (by omega) (by omega) method entry
    rw [slot]
    simpa [Option.isSome_iff_ne_none] using isSome
  have size : assigned.msize c = (h.tableSize c : Nat) := by
    rw [indices.size, h.tableSize_eq, Hierarchy.newCount, Nat.add_comm]
  refine ⟨built, ?_, ?_, ?_⟩
  · exact buildDispatchTable_class notInterface (by rw [eqSized, eqAssigned])
      (by rw [size]; exact Int.natCast_nonneg _) (by rw [eqBase, eqInstalled]) slots defined
  · have knownAll : ∀ method, h.Virtual c method → Known h c (h.methods c) method := by
      intro method visible
      rcases h.virtual_cases visible with own | inherited
      · exact .inr own
      · exact .inl inherited
    refine ⟨?_, ?_, ?_, ?_, ?_, ?_, filled.tramps_nodup, fun method member =>
      (filled.tramps_mem method member).1⟩
    · rw [built_msize, size]
    · intro method visible
      rw [built_idx, built_msize]
      exact indices.range method (knownAll method visible)
    · intro method other visible visible'
      rw [built_idx]
      exact indices.index method other (knownAll method visible) (knownAll other visible')
    · intro index low high
      rw [built_msize] at high
      obtain ⟨method, visible, at_index, entry, found⟩ := entries index low high
      refine ⟨method, visible, ?_, ?_, found, (slot_of index low high method entry).1⟩
      · rw [built_idx, at_index]
      · rw [filled.methodsInDtable, entry]
    · intro method member static
      rw [built_idx]
      exact indices.static method member static
    · intro method member
      apply filled.code method member
      by_cases indexed : 0 ≤ assigned.idx method
      · have isVirtual : method.isVirtual = true := by
          by_contra notVirtual
          have := indices.static method member (by simpa using notVirtual)
          omega
        have inRange := indices.range method (knownAll method (h.virtual_of_mem isVirtual member))
        have entry := installed.entered method member (by rw [inherits.idx]; exact indexed)
        rw [inherits.idx] at entry
        exact (slot_of _ inRange.1 inRange.2 method entry).2
      · have code := installed.code method member (by rw [inherits.idx]; omega)
        rw [filled.kept method (.inr code.isSome)]
        exact code.isSome
  · exact assigned_frame.trans (filled.frame installed inherits)

end

end LaTTe.Classes
