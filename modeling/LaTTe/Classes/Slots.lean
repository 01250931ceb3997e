import LaTTe.Classes.Interface

namespace LaTTe.Classes

open LaTTe.Data

/-! The interface slots of a class, which lie below its tables. -/

structure LowerFrame (c : Nat) (vm next : Vm) : Prop where
  iidx : next.iidx = vm.iidx
  itSize : next.itSize = vm.itSize
  total : next.totalInterface = vm.totalInterface
  isOverridden : next.isOverridden = vm.isOverridden
  callSiteSet : next.callSiteSet = vm.callSiteSet
  text : next.text = vm.text
  dtable : ∀ word < 0, next.dtable c word = vm.dtable c word
  methodsInDtable : ∀ index < 0, next.methodsInDtable c index = vm.methodsInDtable c index

namespace LowerFrame

variable {c : Nat}

theorem refl (vm : Vm) : LowerFrame c vm vm :=
  ⟨rfl, rfl, rfl, rfl, rfl, rfl, fun _ _ => rfl, fun _ _ => rfl⟩

theorem trans {vm next last : Vm} (first : LowerFrame c vm next)
    (second : LowerFrame c next last) : LowerFrame c vm last where
  iidx := second.iidx.trans first.iidx
  itSize := second.itSize.trans first.itSize
  total := second.total.trans first.total
  isOverridden := second.isOverridden.trans first.isOverridden
  callSiteSet := second.callSiteSet.trans first.callSiteSet
  text := second.text.trans first.text
  dtable := fun word low => (second.dtable word low).trans (first.dtable word low)
  methodsInDtable := fun index low =>
    (second.methodsInDtable index low).trans (first.methodsInDtable index low)

theorem foldl {α : Type} {step : Vm → α → Vm} (each : ∀ vm item, LowerFrame c vm (step vm item))
    (items : List α) (vm : Vm) : LowerFrame c vm (items.foldl step vm) := by
  induction items generalizing vm with
  | nil => exact refl vm
  | cons item rest ih => exact (each vm item).trans (ih (step vm item))

theorem foldlM {α : Type} {step : Vm → α → Option Vm}
    (each : ∀ vm item next, step vm item = some next → LowerFrame c vm next) (items : List α)
    {vm final : Vm} (run : items.foldlM step vm = some final) : LowerFrame c vm final := by
  induction items generalizing vm with
  | nil =>
      obtain rfl : vm = final := Option.some.inj run
      exact refl vm
  | cons item rest ih =>
      rw [List.foldlM_cons, Option.bind_eq_bind, Option.bind_eq_some_iff] at run
      obtain ⟨next, taken, run⟩ := run
      exact (each vm item next taken).trans (ih run)

theorem setMethodsInDtable (vm : Vm) {index : Int} (low : 0 ≤ index) (method : Option Method) :
    LowerFrame c vm (vm.setMethodsInDtable c index method) := by
  refine ⟨rfl, rfl, rfl, rfl, rfl, rfl, fun _ _ => rfl, ?_⟩
  intro other negative
  exact Vm.setMethodsInDtable_index vm c method (by omega)

theorem setDtable (vm : Vm) (index : Nat) (code : Option Code) :
    LowerFrame c vm (vm.setDtable c (methodWord index) code) := by
  refine ⟨rfl, rfl, rfl, rfl, rfl, rfl, ?_, fun _ _ => rfl⟩
  intro word negative
  apply Vm.setDtable_word
  unfold methodWord
  omega

theorem fillTrampoline (vm : Vm) (method : Method) :
    LowerFrame c vm (vm.fillTrampoline c method) :=
  ⟨rfl, rfl, rfl, rfl, rfl, rfl, fun _ _ => rfl, fun _ _ => rfl⟩

theorem installMethod (vm : Vm) (method : Method) :
    LowerFrame c vm (installMethod c vm method) := by
  unfold Classes.installMethod
  split
  · rename_i indexed
    exact setMethodsInDtable vm indexed _
  · exact fillTrampoline vm method

theorem fillSlot {vm next : Vm} {index : Nat} (taken : fillSlot c vm index = some next) :
    LowerFrame c vm next := by
  unfold Classes.fillSlot at taken
  rw [Option.bind_eq_bind, Option.bind_eq_some_iff] at taken
  obtain ⟨method, _, taken⟩ := taken
  cases hcode : vm.ncode method with
  | some code =>
      simp only [hcode, Option.some.injEq] at taken
      rw [← taken]
      exact setDtable vm index _
  | none =>
      simp only [hcode, Option.some.injEq] at taken
      rw [← taken]
      exact (fillTrampoline vm method).trans (setDtable _ index _)

theorem inheritMethods {h : Hierarchy} (vm : Vm) : LowerFrame c vm (inheritMethods h c vm) := by
  unfold Classes.inheritMethods
  split
  · exact refl vm
  · exact foldl (fun vm index => setMethodsInDtable vm (Int.natCast_nonneg index) _) _ vm

end LowerFrame

section

variable {h : Hierarchy} {c : Nat} {vm : Vm}

theorem assignIndex_loop_frame (methods : List Method) (vm : Vm) :
    IndexFrame vm (methods.foldl (assignIndex h c) vm) := by
  induction methods generalizing vm with
  | nil => exact ⟨rfl, rfl, rfl, rfl, rfl, rfl, rfl, rfl⟩
  | cons method rest ih => exact (assignIndex_frame h c vm method).trans (ih _)

structure Reserved (h : Hierarchy) (c : Nat) (vm next : Vm) : Prop where
  iidx : next.iidx = vm.iidx
  itSize : next.itSize = (inheritItSize h c vm).itSize
  total : next.totalInterface = vm.totalInterface
  dtable : ∀ word < 0, next.dtable c word = none
  methodsInDtable : ∀ index < 0, next.methodsInDtable c index = none
  isOverridden : next.isOverridden = ((h.methods c).foldl (assignIndex h c)
    (inheritMsize h c (inheritItSize h c vm))).isOverridden
  callSiteSet : next.callSiteSet = vm.callSiteSet
  text : next.text = ((h.methods c).foldl (assignIndex h c)
    (inheritMsize h c (inheritItSize h c vm))).text

theorem buildDispatchTable_reserved {built : Vm} (isClass : h.isInterface c = false)
    (run : buildDispatchTable h vm c = some built) : Reserved h c vm built := by
  unfold buildDispatchTable at run
  simp only [isClass, Bool.false_eq_true, if_false, Option.bind_eq_bind,
    Option.bind_eq_some_iff] at run
  obtain ⟨cleared, allocated, filled, slots, checked⟩ := run
  obtain ⟨_, rfl⟩ := allocateTables_eq_some allocated
  obtain rfl : filled = built := by
    split at checked
    · contradiction
    · exact Option.some.inj checked
  have assigned := assignIndex_loop_frame (h := h) (c := c) (h.methods c)
    (inheritMsize h c (inheritItSize h c vm))
  generalize eqIndexed : (h.methods c).foldl (assignIndex h c)
    (inheritMsize h c (inheritItSize h c vm)) = indexed at assigned slots
  have lower := ((LowerFrame.inheritMethods (h := h) (clearTables c indexed)).trans
    (LowerFrame.foldl LowerFrame.installMethod (h.methods c) _)).trans
    (LowerFrame.foldlM (fun _ _ _ taken => LowerFrame.fillSlot taken) _ slots)
  refine ⟨?_, ?_, ?_, ?_, ?_, ?_, ?_, ?_⟩
  · rw [lower.iidx]
    refine assigned.iidx.trans ?_
    rw [inheritMsize_eq, inheritItSize_eq]
  · rw [lower.itSize]
    refine assigned.itSize.trans ?_
    rw [inheritMsize_eq]
  · rw [lower.total]
    refine assigned.totalInterface.trans ?_
    rw [inheritMsize_eq, inheritItSize_eq]
  · intro word negative
    rw [lower.dtable word negative]
    simp [clearTables]
  · intro index negative
    rw [lower.methodsInDtable index negative]
    simp [clearTables]
  · rw [lower.isOverridden, eqIndexed]
    rfl
  · rw [lower.callSiteSet]
    refine assigned.callSiteSet.trans ?_
    rw [inheritMsize_eq, inheritItSize_eq]
  · rw [lower.text, eqIndexed]
    rfl

theorem Numbered.inherit (numbered : Numbered h c vm) {next : Vm}
    (isClass : h.isInterface c = false) (reserved : Reserved h c vm next) :
    Numbered h (c + 1) next := by
  have positive := numbered.total
  have fresh := numbered.fresh c (Nat.le_refl c)
  -- what the superclass leaves is the start of the loop over the interfaces
  obtain ⟨start, sized, others, low, bounded, super⟩ : ∃ start : Vm,
      inheritItSize h c vm = (h.interfaces c).foldl (raiseItSize c) start ∧
      (∀ k, k ≠ c → start.itSize k = vm.itSize k) ∧ 0 ≤ start.itSize c ∧
      start.itSize c < vm.totalInterface ∧
      ∀ super, h.superclass c = some super → vm.itSize super ≤ start.itSize c := by
    unfold inheritItSize
    cases parent : h.superclass c with
    | none =>
        exact ⟨vm, rfl, fun _ _ => rfl, by omega, by omega, by simp⟩
    | some first =>
        have earlier := numbered.size first (h.superclass_lt c first parent)
        have size : (vm.setItSize c (vm.itSize first)).itSize c = vm.itSize first :=
          Function.update_self _ _ _
        refine ⟨vm.setItSize c (vm.itSize first), rfl,
          fun _ apart => Function.update_of_ne apart _ _, ?_, ?_, ?_⟩
        · rw [size]
          exact earlier.1
        · rw [size]
          exact earlier.2
        · intro super equal
          rw [size, Option.some.inj equal]
  obtain ⟨raised, wider, below, covers⟩ := raiseItSize_spec c (h.interfaces c) start
    (not_mem_own_interfaces h c) bounded (fun i member => by
      rw [others i (Nat.ne_of_lt (h.interface_lt c i member))]
      exact (numbered.size i (h.interface_lt c i member)).2)
  have itSize : next.itSize = ((h.interfaces c).foldl (raiseItSize c) start).itSize := by
    rw [reserved.itSize, sized]
  have frame : NumberFrame c vm next := by
    refine ⟨fun method _ => by rw [reserved.iidx], ?_, Int.le_of_eq reserved.total.symm⟩
    intro k apart
    rw [itSize, raised k apart, others k apart]
  have notInterface : h.isInterface c ≠ true := by
    rw [isClass]
    exact Bool.false_ne_true
  refine numbered.extend frame ⟨?_, ?_⟩ (fun isInterface => absurd isInterface notInterface)
    (fun isInterface => absurd isInterface notInterface) ?_ ?_
  · rw [itSize]
    exact Int.le_trans low wider
  · rw [itSize, reserved.total]
    exact below
  · rw [itSize]
    exact covers
  · intro _ first parent
    rw [frame.itSize first (Nat.ne_of_lt (h.superclass_lt c first parent)), itSize]
    exact Int.le_trans (super first parent) wider

/-! The interface methods in the order in which their slots are filled. -/

def gathered (h : Hierarchy) : Nat → Nat → List Method
  | 0, _ => []
  | fuel + 1, c =>
      (h.interfaces c).flatMap fun i =>
        h.methods i ++ if (h.interfaces i).isEmpty then [] else gathered h fuel i

theorem findmethod_eq (base fuel c : Nat) (vm : Vm) :
    findmethod h base fuel c vm = (gathered h fuel c).foldl (fillInterfaceSlot h base) vm := by
  induction fuel generalizing c vm with
  | zero => rfl
  | succ fuel ih =>
      rw [findmethod, gathered, List.foldl_flatMap]
      congr 1
      funext vm i
      rw [List.foldl_append]
      cases (h.interfaces i).isEmpty with
      | true => rfl
      | false => exact ih i _

def interfaceMethods (h : Hierarchy) (c : Nat) : List Method :=
  (h.ancestry c).flatMap fun super => gathered h super super

theorem buildInterfaceTable_eq (vm : Vm) :
    buildInterfaceTable h vm c = (interfaceMethods h c).foldl (fillInterfaceSlot h c) vm := by
  rw [buildInterfaceTable, interfaceMethods, List.foldl_flatMap]
  congr 1
  funext vm super
  exact findmethod_eq c super super vm

theorem mem_gathered {fuel c : Nat} (enough : c ≤ fuel) {method : Method} :
    method ∈ gathered h fuel c ↔ ∃ i, h.Extends c i ∧ method ∈ h.methods i := by
  induction fuel generalizing c with
  | zero =>
      obtain rfl : c = 0 := Nat.le_zero.mp enough
      refine ⟨fun member => by simp [gathered] at member, ?_⟩
      rintro ⟨i, extension, _⟩
      exact absurd (h.extends_lt extension) (Nat.not_lt_zero i)
  | succ fuel ih =>
      rw [gathered, List.mem_flatMap]
      constructor
      · rintro ⟨i, inInterfaces, member⟩
        rcases List.mem_append.mp member with own | further
        · exact ⟨i, .single inInterfaces, own⟩
        · split at further
          · simp at further
          · have below := h.interface_lt c i inInterfaces
            obtain ⟨j, extension, inherited⟩ := (ih (by omega)).mp further
            exact ⟨j, .head inInterfaces extension, inherited⟩
      · rintro ⟨i, extension, member⟩
        -- the first interface on the way decides which call reaches the method
        rcases Relation.TransGen.head'_iff.mp extension with ⟨first, inInterfaces, onward⟩
        refine ⟨first, inInterfaces, List.mem_append.mpr ?_⟩
        rcases Relation.reflTransGen_iff_eq_or_transGen.mp onward with rfl | further
        · exact .inl member
        · obtain ⟨next, nonempty, _⟩ := Relation.TransGen.head'_iff.mp further
          have below := h.interface_lt c first inInterfaces
          refine .inr ?_
          rw [if_neg (by simpa using List.ne_nil_of_mem nonempty)]
          exact (ih (by omega)).mpr ⟨i, further, member⟩

theorem mem_interfaceMethods {method : Method} :
    method ∈ interfaceMethods h c ↔ ∃ i, h.Implements c i ∧ method ∈ h.methods i := by
  rw [interfaceMethods, List.mem_flatMap]
  constructor
  · rintro ⟨super, inAncestry, member⟩
    obtain ⟨i, extension, inInterface⟩ := (mem_gathered (Nat.le_refl super)).mp member
    exact ⟨i, ⟨super, inAncestry, extension⟩, inInterface⟩
  · rintro ⟨i, ⟨super, inAncestry, extension⟩, member⟩
    exact ⟨super, inAncestry, (mem_gathered (Nat.le_refl super)).mpr ⟨i, extension, member⟩⟩

/-! Filling the slots. -/

structure SlotsFilled (h : Hierarchy) (c : Nat) (base : Vm) (done : List Method) (vm : Vm) :
    Prop where
  idx : vm.idx = base.idx
  ncode : vm.ncode = base.ncode
  msize : vm.msize = base.msize
  tramps : vm.tramps = base.tramps
  itSize : vm.itSize = base.itSize
  total : vm.totalInterface = base.totalInterface
  iidx : ∀ method, method.owner ∉ h.ancestry c → vm.iidx method = base.iidx method
  dtable_other : ∀ k, k ≠ c → vm.dtable k = base.dtable k
  methods_other : ∀ k, k ≠ c → vm.methodsInDtable k = base.methodsInDtable k
  filled : ∀ method ∈ done, method.name ≠ initName → ∀ found,
    h.findMethod c method.name method.signature = some found → 0 ≤ base.idx found →
    vm.dtable c (-base.iidx method) = base.dtable c (methodWord (base.idx found)) ∧
    vm.methodsInDtable c (-base.iidx method) = base.methodsInDtable c (base.idx found)
  kept : ∀ word, (∀ method ∈ done,
      (h.findMethod c method.name method.signature).isSome → -base.iidx method ≠ word) →
    vm.dtable c word = base.dtable c word ∧
    vm.methodsInDtable c word = base.methodsInDtable c word

structure Gathering (h : Hierarchy) (c : Nat) (base : Vm) (items : List Method) : Prop where
  apart : ∀ method ∈ items, method.owner ∉ h.ancestry c
  positive : ∀ method ∈ items, 1 ≤ base.iidx method
  matching : ∀ method ∈ items, ∀ other ∈ items, base.iidx method = base.iidx other →
    method.Matches other

theorem SlotsFilled.upper {base : Vm} {items done : List Method}
    (slots : SlotsFilled h c base done vm) (gathering : Gathering h c base items)
    (inItems : ∀ method ∈ done, method ∈ items) {word : Int} (low : 0 ≤ word) :
    vm.dtable c word = base.dtable c word ∧
      vm.methodsInDtable c word = base.methodsInDtable c word := by
  apply slots.kept
  intro method member _
  have := gathering.positive method (inItems method member)
  omega

theorem SlotsFilled.skip {base : Vm} {done : List Method} {method : Method}
    (slots : SlotsFilled h c base done vm)
    (nothing : method.name ≠ initName →
      h.findMethod c method.name method.signature = none) :
    SlotsFilled h c base (done ++ [method]) vm := by
  refine { slots with filled := ?_, kept := ?_ }
  · intro other member named found result
    rcases List.mem_append.mp member with before | now
    · exact slots.filled other before named found result
    · rw [List.mem_singleton.mp now] at named result
      rw [nothing named] at result
      contradiction
  · intro word unused
    exact slots.kept word fun other before => unused other (by simp [before])

def fillFound (c : Nat) (vm : Vm) (method found : Method) : Vm :=
  ((vm.setIidx found (vm.iidx method)).setDtable c (-vm.iidx method)
    (vm.dtable c (methodWord (vm.idx found)))).setMethodsInDtable c (-vm.iidx method)
      (vm.methodsInDtable c (vm.idx found))

theorem fillInterfaceSlot_found {method found : Method} (named : method.name ≠ initName)
    (result : h.findMethod c method.name method.signature = some found) :
    fillInterfaceSlot h c vm method = fillFound c vm method found := by
  rw [Hierarchy.findMethod] at result
  rw [fillInterfaceSlot, if_neg named, result, fillFound]
  simp only [Vm.setIidx, Vm.setDtable, Vm.setMethodsInDtable, Function.update_self]

theorem SlotsFilled.fill {base : Vm} {items done : List Method} {method found : Method}
    (slots : SlotsFilled h c base done vm) (gathering : Gathering h c base items)
    (inItems : ∀ other ∈ done ++ [method], other ∈ items)
    (result : h.findMethod c method.name method.signature = some found) :
    SlotsFilled h c base (done ++ [method]) (fillFound c vm method found) := by
  have before_items : ∀ other ∈ done, other ∈ items :=
    fun other before => inItems other (by simp [before])
  have member : method ∈ items := inItems method (by simp)
  have number := slots.iidx method (gathering.apart method member)
  unfold fillFound
  rw [number, slots.idx]
  refine ⟨slots.idx, slots.ncode, slots.msize, slots.tramps, slots.itSize, slots.total,
    ?_, ?_, ?_, ?_, ?_⟩
  · intro other elsewhere
    refine Eq.trans (Function.update_of_ne ?_ _ _) (slots.iidx other elsewhere)
    rintro rfl
    exact elsewhere (h.findAmong_eq_some result).1
  · intro k different
    exact (Vm.setDtable_other _ _ _ different).trans (slots.dtable_other k different)
  · intro k different
    exact (Vm.setMethodsInDtable_other _ _ _ different).trans (slots.methods_other k different)
  · intro other isMember named found' result' indexed
    by_cases same : base.iidx other = base.iidx method
    · -- methods with one number have one name, so both lookups agree
      have matching := gathering.matching other (inItems other isMember) method member same
      rw [matching.1, matching.2, result] at result'
      obtain rfl : found = found' := Option.some.inj result'
      have upper : 0 ≤ methodWord (base.idx found) := by
        unfold methodWord
        omega
      rw [same]
      refine ⟨(Vm.setDtable_self _ c _ _).trans ?_, (Vm.setMethodsInDtable_self _ c _ _).trans ?_⟩
      · exact (slots.upper gathering before_items upper).1
      · exact (slots.upper gathering before_items indexed).2
    · have before : other ∈ done := by
        rcases List.mem_append.mp isMember with before | now
        · exact before
        · exact absurd (congrArg base.iidx (List.mem_singleton.mp now)) same
      have apart : -base.iidx other ≠ -base.iidx method := by omega
      obtain ⟨entry, entry'⟩ := slots.filled other before named found' result' indexed
      exact ⟨(Vm.setDtable_word _ c _ apart).trans entry,
        (Vm.setMethodsInDtable_index _ c _ apart).trans entry'⟩
  · intro word unused
    have apart : word ≠ -base.iidx method :=
      (unused method (by simp) (by rw [result]; rfl)).symm
    obtain ⟨entry, entry'⟩ := slots.kept word fun other before => unused other (by simp [before])
    exact ⟨(Vm.setDtable_word _ c _ apart).trans entry,
      (Vm.setMethodsInDtable_index _ c _ apart).trans entry'⟩

theorem SlotsFilled.step {base : Vm} {items done : List Method} {method : Method}
    (slots : SlotsFilled h c base done vm) (gathering : Gathering h c base items)
    (inItems : ∀ other ∈ done ++ [method], other ∈ items) :
    SlotsFilled h c base (done ++ [method]) (fillInterfaceSlot h c vm method) := by
  by_cases named : method.name = initName
  · rw [fillInterfaceSlot, if_pos named]
    exact slots.skip fun other => absurd named other
  · cases result : h.findMethod c method.name method.signature with
    | none =>
        rw [fillInterfaceSlot, if_neg named, ← Hierarchy.findMethod, result]
        exact slots.skip fun _ => result
    | some found =>
        rw [fillInterfaceSlot_found named result]
        exact slots.fill gathering inItems result

theorem fillInterfaceSlot_loop {base : Vm} {items : List Method}
    (gathering : Gathering h c base items) :
    SlotsFilled h c base items (items.foldl (fillInterfaceSlot h c) base) := by
  refine foldl_prefix (SlotsFilled h c base) ?_ ?_
  · intro done method rest state split slots
    refine slots.step gathering ?_
    intro other member
    rw [split]
    rcases List.mem_append.mp member with before | now
    · simp [before]
    · simp [List.mem_singleton.mp now]
  · exact ⟨rfl, rfl, rfl, rfl, rfl, rfl, fun _ _ => rfl, fun _ _ => rfl, fun _ _ => rfl,
      by simp, fun _ _ => ⟨rfl, rfl⟩⟩

/-! The slots of a prepared class. -/

structure Slotted (h : Hierarchy) (vm : Vm) (c : Nat) : Prop where
  slot : ∀ i, h.Implements c i → ∀ method ∈ h.methods i, method.name ≠ initName → ∀ found,
    h.findMethod c method.name method.signature = some found → found.isVirtual = true →
    vm.dtable c (-vm.iidx method) = vm.ncode found ∧
    vm.methodsInDtable c (-vm.iidx method) = some found
  empty : ∀ i, h.Implements c i → ∀ method ∈ h.methods i,
    h.findMethod c method.name method.signature = none →
    vm.dtable c (-vm.iidx method) = none ∧ vm.methodsInDtable c (-vm.iidx method) = none

theorem ancestry_class (isClass : h.isInterface c = false) {k : Nat}
    (inAncestry : k ∈ h.ancestry c) : h.isInterface k = false := by
  rw [h.ancestry_eq] at inAncestry
  rcases List.mem_cons.mp inAncestry with rfl | above
  · exact isClass
  · exact h.superclasses_class above

theorem Numbered.gathering {count : Nat} (numbered : Numbered h count vm) (earlier : c < count)
    (isClass : h.isInterface c = false) : Gathering h c vm (interfaceMethods h c) := by
  refine ⟨?_, ?_, ?_⟩
  · intro method member inAncestry
    obtain ⟨i, implementation, inInterface⟩ := mem_interfaceMethods.mp member
    rw [h.owner_eq i method inInterface] at inAncestry
    have isInterface := h.implements_interface implementation
    rw [ancestry_class isClass inAncestry] at isInterface
    contradiction
  · intro method member
    obtain ⟨i, implementation, inInterface⟩ := mem_interfaceMethods.mp member
    exact (numbered.range i (Nat.lt_trans (h.implements_lt implementation) earlier)
      (h.implements_interface implementation) method inInterface).1
  · intro method member other member' equal
    obtain ⟨i, implementation, inInterface⟩ := mem_interfaceMethods.mp member
    obtain ⟨j, implementation', inInterface'⟩ := mem_interfaceMethods.mp member'
    exact numbered.matching i (Nat.lt_trans (h.implements_lt implementation) earlier)
      (h.implements_interface implementation) method inInterface
      j (Nat.lt_trans (h.implements_lt implementation') earlier)
      (h.implements_interface implementation') other inInterface' equal

end

end LaTTe.Classes
