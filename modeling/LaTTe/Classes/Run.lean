import LaTTe.Classes.Slots
import Mathlib.Data.List.Perm.Subperm

namespace LaTTe.Classes

open LaTTe.Data

section

variable {h : Hierarchy} {c : Nat} {vm next : Vm}

theorem Dispatched.lookup (dispatched : Dispatched h vm c) {method : Method}
    (visible : h.Virtual c method) :
    ∃ found, h.findMethod c method.name method.signature = some found ∧ h.Virtual c found ∧
      vm.idx found = vm.idx method ∧ vm.methodsInDtable c (vm.idx method) = some found ∧
      vm.dtable c (methodWord (vm.idx method)) = vm.ncode found := by
  obtain ⟨low, high⟩ := dispatched.range method visible
  obtain ⟨found, visible', equal, entry, result, slot⟩ := dispatched.entry _ low high
  obtain ⟨sameName, sameSignature⟩ := (dispatched.index found method visible' visible).mp equal
  rw [sameName, sameSignature] at result
  exact ⟨found, result, visible', equal, entry, slot⟩

theorem findMethod_virtual {found : Method} {name signature : String}
    (result : h.findMethod c name signature = some found) (isVirtual : found.isVirtual = true) :
    h.Virtual c found := by
  obtain ⟨inAncestry, member, _⟩ := h.findAmong_eq_some result
  exact ⟨isVirtual, found.owner, inAncestry, member⟩

theorem findMethod_again {found : Method} {name signature : String}
    (result : h.findMethod c name signature = some found) :
    h.findMethod c found.name found.signature = some found := by
  obtain ⟨_, _, sameName, sameSignature⟩ := h.findAmong_eq_some result
  rw [sameName, sameSignature]
  exact result

theorem Dispatched.found (dispatched : Dispatched h vm c) {found : Method}
    {name signature : String} (result : h.findMethod c name signature = some found)
    (isVirtual : found.isVirtual = true) :
    0 ≤ vm.idx found ∧ vm.methodsInDtable c (vm.idx found) = some found ∧
      vm.dtable c (methodWord (vm.idx found)) = vm.ncode found := by
  have visible := findMethod_virtual result isVirtual
  obtain ⟨found', result', _, _, entry, slot⟩ := dispatched.lookup visible
  obtain rfl : found = found' := Option.some.inj ((findMethod_again result).symm.trans result')
  exact ⟨(dispatched.range found visible).1, entry, slot⟩

theorem enters_of_virtual {count : Nat}
    (dispatched : ∀ k < count, h.isInterface k = false → Dispatched h vm k) (earlier : c < count)
    (isClass : h.isInterface c = false) {method : Method} (visible : h.Virtual c method) :
    Enters vm (vm.ncode method) method := by
  obtain ⟨_, k, inAncestry, member⟩ := visible
  exact (dispatched k (Nat.lt_of_le_of_lt (h.mem_ancestry_le inAncestry) earlier)
    (ancestry_class isClass inAncestry)).code method member

theorem Dispatched.slots {items : List Method} (gathering : Gathering h c vm items)
    (slots : SlotsFilled h c vm items next) (dispatched : Dispatched h vm c) :
    Dispatched h next c := by
  have upper : ∀ {word : Int}, 0 ≤ word → _ :=
    fun low => slots.upper gathering (fun _ member => member) low
  refine ⟨?_, ?_, ?_, ?_, ?_, ?_, ?_, ?_⟩
  · rw [slots.msize]
    exact dispatched.size
  · rw [slots.idx, slots.msize]
    exact dispatched.range
  · rw [slots.idx]
    exact dispatched.index
  · intro index low high
    rw [slots.msize] at high
    rw [slots.idx, slots.ncode, (upper low).2,
      (upper (show 0 ≤ methodWord index by unfold methodWord; omega)).1]
    exact dispatched.entry index low high
  · rw [slots.idx]
    exact dispatched.static
  · intro method member
    obtain ⟨slot, code, filled⟩ := dispatched.code method member
    rw [slots.ncode]
    exact ⟨slot, code, by rw [slots.tramps]; exact filled⟩
  · rw [slots.tramps]
    exact dispatched.tramps_nodup
  · rw [slots.tramps]
    exact dispatched.tramps_mem

theorem SlotsFilled.frame {items : List Method} (slots : SlotsFilled h c vm items next) :
    Frame c vm next where
  idx := fun method _ => congrFun slots.idx method
  ncode := fun method _ => congrFun slots.ncode method
  msize := fun k _ => congrFun slots.msize k
  dtable := slots.dtable_other
  methodsInDtable := slots.methods_other
  tramps := fun k _ => congrFun slots.tramps k

theorem Slotted.of_loop {built : Vm}
    (dispatched : Dispatched h built c) (reserved : Reserved h c vm built)
    (gathering : Gathering h c built (interfaceMethods h c))
    (slots : SlotsFilled h c built (interfaceMethods h c) next) : Slotted h next c := by
  have number : ∀ {i method}, h.Implements c i → method ∈ h.methods i →
      next.iidx method = built.iidx method ∧ method ∈ interfaceMethods h c := by
    intro i method implementation member
    have gathered := mem_interfaceMethods.mpr ⟨i, implementation, member⟩
    exact ⟨slots.iidx method (gathering.apart method gathered), gathered⟩
  refine ⟨?_, ?_⟩
  · intro i implementation method member named found result isVirtual
    obtain ⟨equal, gathered⟩ := number implementation member
    obtain ⟨indexed, entry, slot⟩ := dispatched.found result isVirtual
    obtain ⟨code, method'⟩ := slots.filled method gathered named found result indexed
    rw [equal, code, method', slots.ncode]
    exact ⟨slot, entry⟩
  · intro i implementation method member missing
    obtain ⟨equal, gathered⟩ := number implementation member
    have positive := gathering.positive method gathered
    have unused : ∀ other ∈ interfaceMethods h c,
        (h.findMethod c other.name other.signature).isSome →
        -built.iidx other ≠ -built.iidx method := by
      intro other gathered' isSome same
      have matching := gathering.matching other gathered' method gathered (by omega)
      rw [matching.1, matching.2, missing] at isSome
      contradiction
    obtain ⟨code, method'⟩ := slots.kept _ unused
    rw [equal, code, method']
    exact ⟨reserved.dtable _ (by omega), reserved.methodsInDtable _ (by omega)⟩

theorem Slotted.frame {k : Nat} (frame : Frame c vm next) (earlier : k < c)
    (iidx : ∀ i < c, h.isInterface i = true → ∀ method ∈ h.methods i,
      next.iidx method = vm.iidx method)
    (slotted : Slotted h vm k) : Slotted h next k := by
  have apart : k ≠ c := Nat.ne_of_lt earlier
  have number : ∀ {i}, h.Implements k i → ∀ method ∈ h.methods i,
      next.iidx method = vm.iidx method := fun implementation =>
    iidx _ (Nat.lt_trans (h.implements_lt implementation) earlier)
      (h.implements_interface implementation)
  refine ⟨?_, ?_⟩
  · intro i implementation method member named found result isVirtual
    have owner := virtual_owner_le (findMethod_virtual result isVirtual)
    rw [number implementation method member, frame.dtable k apart,
      frame.methodsInDtable k apart, frame.ncode found (by omega)]
    exact slotted.slot i implementation method member named found result isVirtual
  · intro i implementation method member missing
    rw [number implementation method member, frame.dtable k apart,
      frame.methodsInDtable k apart]
    exact slotted.empty i implementation method member missing

end

structure Prepared (h : Hierarchy) (count : Nat) (vm : Vm) : Prop where
  dispatched : ∀ c < count, h.isInterface c = false → Dispatched h vm c
  slotted : ∀ c < count, h.isInterface c = false → Slotted h vm c
  numbered : Numbered h count vm
  fresh : ∀ method, count ≤ method.owner → vm.ncode method = none

section

variable {h : Hierarchy} {c count : Nat} {vm next : Vm}

theorem prepared_initial (h : Hierarchy) (text : Nat → BitVec 32) :
    Prepared h 0 (Vm.initial text) := by
  refine ⟨by simp, by simp, ⟨?_, ?_, ?_, ?_, ?_, ?_, ?_⟩, fun _ _ => rfl⟩
  · exact Int.le_refl 1
  · exact fun _ below => absurd below (Nat.not_lt_zero _)
  · exact fun _ _ => rfl
  all_goals exact fun _ below => absurd below (Nat.not_lt_zero _)

theorem Prepared.extend (prepared : Prepared h c vm) (frame : Frame c vm next)
    (iidx : ∀ i < c, h.isInterface i = true → ∀ method ∈ h.methods i,
      next.iidx method = vm.iidx method)
    (numbered : Numbered h (c + 1) next)
    (tables : h.isInterface c = false → Dispatched h next c ∧ Slotted h next c) :
    Prepared h (c + 1) next := by
  refine ⟨?_, ?_, numbered, ?_⟩
  · intro k below isClass
    rcases Nat.lt_succ_iff_lt_or_eq.mp below with before | rfl
    · exact (prepared.dispatched k before isClass).frame frame before
    · exact (tables isClass).1
  · intro k below isClass
    rcases Nat.lt_succ_iff_lt_or_eq.mp below with before | rfl
    · exact (prepared.slotted k before isClass).frame frame before iidx
    · exact (tables isClass).2
  · intro method later
    rw [frame.ncode method (by omega)]
    exact prepared.fresh method (by omega)

theorem numberInterfaceMethod_loop (methods : List Method) (vm : Vm) :
    methods.foldl (numberInterfaceMethod h c) vm =
      { vm with
        iidx := (methods.foldl (numberInterfaceMethod h c) vm).iidx
        itSize := (methods.foldl (numberInterfaceMethod h c) vm).itSize
        totalInterface := (methods.foldl (numberInterfaceMethod h c) vm).totalInterface } := by
  induction methods generalizing vm with
  | nil => rfl
  | cons method rest ih =>
      rw [List.foldl_cons, ih]
      unfold numberInterfaceMethod
      split <;> rfl

theorem numberInterface_frame (vm : Vm) : Frame c vm (numberInterface h c vm) := by
  rw [numberInterface, numberInterfaceMethod_loop, raiseItSize_loop]
  exact ⟨fun _ _ => rfl, fun _ _ => rfl, fun _ _ => rfl, fun _ _ => rfl, fun _ _ => rfl,
    fun _ _ => rfl⟩

theorem Prepared.prepare_interface (prepared : Prepared h c vm)
    (isInterface : h.isInterface c = true) :
    ∃ next, prepare h vm c = some next ∧ Prepared h (c + 1) next := by
  obtain ⟨numbers, numbered⟩ := numberInterface_numbered prepared.numbered isInterface
  refine ⟨numberInterface h c vm, ?_, prepared.extend (numberInterface_frame vm) ?_ numbered ?_⟩
  · simp [prepare, buildDispatchTable, isInterface]
  · intro i below _ method member
    exact numbers.iidx method (owner_lt_of_mem below member)
  · intro isClass
    rw [isInterface] at isClass
    contradiction

theorem Prepared.prepare_class (prepared : Prepared h c vm) (isClass : h.isInterface c = false)
    (clash : h.NoClash c) (fits : h.tableSize c < 2 ^ 15) :
    ∃ next, prepare h vm c = some next ∧ Prepared h (c + 1) next := by
  obtain ⟨built, run, dispatched, frame⟩ := buildDispatchTable_spec isClass clash fits
    (fun k above => prepared.dispatched k (h.mem_superclasses_lt above) (h.superclasses_class above))
    (fun method member => prepared.fresh method (by rw [h.owner_eq c method member]))
  have reserved := buildDispatchTable_reserved isClass run
  have numbered := prepared.numbered.inherit isClass reserved
  have gathering := numbered.gathering (Nat.lt_succ_self c) isClass
  have slots := fillInterfaceSlot_loop gathering
  rw [← buildInterfaceTable_eq] at slots
  have iidx : ∀ i < c + 1, h.isInterface i = true → ∀ method ∈ h.methods i,
      (buildInterfaceTable h built c).iidx method = built.iidx method := by
    intro i _ isInterface method member
    apply slots.iidx
    intro inAncestry
    rw [h.owner_eq i method member] at inAncestry
    rw [ancestry_class isClass inAncestry] at isInterface
    contradiction
  refine ⟨buildInterfaceTable h built c, ?_, prepared.extend (frame.trans slots.frame) ?_ ?_ ?_⟩
  · simp [prepare, run, isClass]
  · intro i below isInterface method member
    rw [iidx i (Nat.lt_succ_of_lt below) isInterface method member, reserved.iidx]
  · exact numbered.congr slots.total slots.itSize iidx
  · intro _
    exact ⟨dispatched.slots gathering slots,
      Slotted.of_loop dispatched reserved gathering slots⟩

theorem prepareAll_prepared (text : Nat → BitVec 32)
    (clash : ∀ c < count, h.isInterface c = false → h.NoClash c)
    (fits : ∀ c < count, h.isInterface c = false → h.tableSize c < 2 ^ 15) :
    ∃ vm, prepareAll h text count = some vm ∧ Prepared h count vm := by
  induction count with
  | zero => exact ⟨Vm.initial text, rfl, prepared_initial h text⟩
  | succ c ih =>
      obtain ⟨vm, run, prepared⟩ := ih
        (fun k below => clash k (Nat.lt_succ_of_lt below))
        (fun k below => fits k (Nat.lt_succ_of_lt below))
      have last : ∃ next, prepare h vm c = some next ∧ Prepared h (c + 1) next := by
        cases isInterface : h.isInterface c with
        | true => exact prepared.prepare_interface isInterface
        | false =>
            exact prepared.prepare_class isInterface (clash c (Nat.lt_succ_self c) isInterface)
              (fits c (Nat.lt_succ_self c) isInterface)
      obtain ⟨next, step, prepared'⟩ := last
      refine ⟨next, ?_, prepared'⟩
      rw [prepareAll, List.range_succ, List.foldlM_append, ← prepareAll, run]
      simp [step]

def Overrides (h : Hierarchy) (method overridden : Method) : Prop :=
  method.Matches overridden ∧ overridden.owner ∈ h.superclasses method.owner

namespace Hierarchy

/-- Only the virtual methods of a class are lost when `nmethods` is negative. -/
def Counted (h : Hierarchy) (c : Nat) : Prop :=
  (h.declared c).length < 2 ^ 15 ∨ ∀ method ∈ h.declared c, method.isVirtual = false

instance (h : Hierarchy) (c : Nat) : Decidable (h.Counted c) :=
  inferInstanceAs (Decidable (_ ∨ _))

/-- No method clashes in static-ness with an inherited one. -/
def Compatible (h : Hierarchy) (c : Nat) : Prop :=
  ∀ method ∈ h.declared c, ∀ k ∈ h.superclasses c, ∀ inherited ∈ h.declared k,
    method.Matches inherited → method.isStatic = inherited.isStatic

instance (h : Hierarchy) (c : Nat) : Decidable (h.Compatible c) :=
  inferInstanceAs (Decidable (∀ method ∈ h.declared c, ∀ k ∈ h.superclasses c,
    ∀ inherited ∈ h.declared k,
      method.Matches inherited → method.isStatic = inherited.isStatic))

def Visible (h : Hierarchy) (c : Nat) (method : Method) : Prop :=
  method.isVirtual = true ∧ ∃ k ∈ h.ancestry c, method ∈ h.declared k

def lookup (h : Hierarchy) (c : Nat) (name signature : String) : Option Method :=
  (h.ancestry c).findSome? fun k => (h.declared k).find? fun method =>
    decide (method.name = name ∧ method.signature = signature)

theorem Counted.methods_eq (counted : h.Counted c) {method : Method}
    (member : method ∈ h.declared c) (isVirtual : method.isVirtual = true) :
    h.methods c = h.declared c := by
  rcases counted with short | others
  · exact h.methods_of_short short
  · rw [others method member] at isVirtual
    contradiction

theorem Visible.virtual {method : Method} (visible : h.Visible c method)
    (counted : ∀ k ∈ h.ancestry c, h.Counted k) : h.Virtual c method := by
  obtain ⟨isVirtual, k, inAncestry, member⟩ := visible
  refine ⟨isVirtual, k, inAncestry, ?_⟩
  rw [(counted k inAncestry).methods_eq member isVirtual]
  exact member

theorem lookup_of_mem {method : Method} (member : method ∈ h.declared c) :
    h.lookup c method.name method.signature = some method := by
  have here : ((h.declared c).find? fun other =>
      decide (other.name = method.name ∧ other.signature = method.signature)) = some method := by
    cases result : (h.declared c).find? fun other =>
        decide (other.name = method.name ∧ other.signature = method.signature) with
    | none =>
        have apart := List.find?_eq_none.mp result method member
        simp at apart
    | some found =>
        have same := List.find?_some result
        rw [h.distinct_declared (List.mem_of_find?_eq_some result) member
          (of_decide_eq_true same)]
  unfold lookup
  rw [ancestry_eq, List.findSome?_cons, here]

end Hierarchy

/-- The dispatch table of a class is right: a visible method dispatches to what a
lookup finds, methods share an index only by overriding, and the trampolines fit. -/
structure VirtualDispatch (h : Hierarchy) (vm : Vm) (c : Nat) : Prop where
  entry : ∀ method, h.Visible c method → ∃ found,
    h.lookup c method.name method.signature = some found ∧
    h.findMethod c method.name method.signature = some found ∧
    vm.methodsInDtable c (vm.idx method) = some found ∧
    Enters vm (vm.dtable c (methodWord (vm.idx method))) found
  shared : ∀ method other, h.Visible c method → h.Visible c other →
    vm.idx method = vm.idx other →
    method = other ∨ Overrides h method other ∨ Overrides h other method
  tramps : (vm.tramps c).length ≤ (h.methods c).length

theorem Prepared.virtual_entry (prepared : Prepared h count vm) (earlier : c < count)
    (isClass : h.isInterface c = false) {method : Method} (visible : h.Virtual c method) :
    ∃ found, h.findMethod c method.name method.signature = some found ∧
      vm.methodsInDtable c (vm.idx method) = some found ∧
      Enters vm (vm.dtable c (methodWord (vm.idx method))) found := by
  obtain ⟨found, result, visible', _, entry, slot⟩ :=
    (prepared.dispatched c earlier isClass).lookup visible
  refine ⟨found, result, entry, ?_⟩
  rw [slot]
  exact enters_of_virtual prepared.dispatched earlier isClass visible'

theorem VirtualDispatch.counted (right : VirtualDispatch h vm c) : h.Counted c := by
  rcases Nat.lt_or_ge (h.declared c).length (2 ^ 15) with short | long
  · exact .inl short
  · refine .inr fun method member => ?_
    by_contra notFalse
    have isVirtual : method.isVirtual = true := by simpa using notFalse
    obtain ⟨found, looked, result, _⟩ :=
      right.entry method ⟨isVirtual, c, h.mem_ancestry_self c, member⟩
    rw [h.lookup_of_mem member] at looked
    obtain rfl := Option.some.inj looked
    obtain ⟨_, met, _⟩ := h.findAmong_eq_some result
    rw [h.declared_owner c method member, h.methods_of_long long] at met
    exact List.not_mem_nil met

/-! The size of the table wraps. -/

def runnable : Hierarchy :=
  .ofList
    [ { ClassFile.empty with
        methods := [⟨0, "<init>", "()V", false⟩, ⟨0, "hashCode", "()I", false⟩]
        distinct := by decide
        counted := by decide },
      { ClassFile.empty with
        superclass := some 0
        isInterface := true
        isAbstract := true
        methods := [⟨1, "run", "()V", false⟩]
        distinct := by decide
        counted := by decide },
      { ClassFile.empty with
        superclass := some 0
        interfaces := [1]
        methods := [⟨2, "run", "()V", false⟩, ⟨2, "hashCode", "()I", false⟩]
        distinct := by decide
        counted := by decide } ]
    (by decide)

def manyName (n : Nat) : String :=
  String.singleton (Char.ofNat (0x4e00 + n))

theorem manyName_injective {n m : Nat} (small : n < 2 ^ 15) (small' : m < 2 ^ 15)
    (same : manyName n = manyName m) : n = m := by
  have code : ∀ {k : Nat}, k < 2 ^ 15 → (Char.ofNat (0x4e00 + k)).toNat = 0x4e00 + k := by
    intro k below
    have valid : (0x4e00 + k).isValidChar := .inl (by omega)
    rw [Char.ofNat, dif_pos valid]
    rfl
  have chars : Char.ofNat (0x4e00 + n) = Char.ofNat (0x4e00 + m) := by
    simpa [manyName] using same
  have equal := congrArg Char.toNat chars
  rw [code small, code small'] at equal
  omega

def manyMethods (count : Nat) : List Method :=
  (List.range count).map fun n => ⟨1, manyName n, "()V", false⟩

theorem manyMethods_distinct {count : Nat} (few : count ≤ 2 ^ 15) :
    (manyMethods count).Pairwise fun method other => ¬ method.Matches other := by
  rw [manyMethods, List.pairwise_map]
  refine List.nodup_range.imp_of_mem ?_
  intro n m member member' apart matching
  rw [List.mem_range] at member member'
  exact apart (manyName_injective (by omega) (by omega) matching.1)

def manyFiles (count : Nat) (few : count ≤ 2 ^ 15) : List ClassFile :=
  [ { ClassFile.empty with
      methods := [⟨0, "hashCode", "()I", false⟩]
      distinct := by decide
      counted := by decide },
    { ClassFile.empty with
      superclass := some 0
      methods := manyMethods count
      distinct := manyMethods_distinct few
      counted := by
        rw [manyMethods, List.length_map, List.length_range]
        omega } ]

theorem manyFiles_ordered (count : Nat) (few : count ≤ 2 ^ 15) :
    ∀ c < (manyFiles count few).length, Hierarchy.Ordered (manyFiles count few) c := by
  intro c below
  match c, below with
  | 0, _ => exact ⟨by simp [Hierarchy.fileAt, manyFiles],
      by simp [Hierarchy.fileAt, manyFiles, ClassFile.empty],
      by simp [Hierarchy.fileAt, manyFiles, ClassFile.empty]⟩
  | 1, _ =>
      refine ⟨?_, ?_, ?_⟩
      · intro method member
        have inMany : method ∈ manyMethods count := member
        obtain ⟨n, _, rfl⟩ := List.mem_map.mp inMany
        rfl
      · intro super above
        obtain rfl : 0 = super := Option.some.inj above
        exact ⟨Nat.zero_lt_one, rfl⟩
      · intro i member
        exact absurd member List.not_mem_nil

def many (count : Nat) (few : count ≤ 2 ^ 15) : Hierarchy :=
  .ofList (manyFiles count few) (manyFiles_ordered count few)

theorem Prepared.slot_found (prepared : Prepared h count vm) (earlier : c < count)
    (isClass : h.isInterface c = false) {i : Nat} (implementation : h.Implements c i)
    {method : Method} (member : method ∈ h.methods i) (named : method.name ≠ initName)
    {found : Method} (result : h.findMethod c method.name method.signature = some found)
    (isVirtual : found.isVirtual = true) :
    vm.methodsInDtable c (-vm.iidx method) = some found ∧
      Enters vm (vm.dtable c (-vm.iidx method)) found := by
  obtain ⟨slot, entry⟩ := (prepared.slotted c earlier isClass).slot i implementation method
    member named found result isVirtual
  refine ⟨entry, ?_⟩
  rw [slot]
  exact enters_of_virtual prepared.dispatched earlier isClass
    (findMethod_virtual result isVirtual)

/-- Where `_findmethod` finds no match, its assertion aside, the slot stays null. -/
theorem Prepared.slot_unmatched (prepared : Prepared h count vm) (earlier : c < count)
    (isClass : h.isInterface c = false) {i : Nat} (implementation : h.Implements c i)
    {method : Method} (member : method ∈ h.methods i)
    (unmatched : h.findMethod c method.name method.signature = none) :
    vm.dtable c (-vm.iidx method) = none :=
  ((prepared.slotted c earlier isClass).empty i implementation method member unmatched).1

end

end LaTTe.Classes
