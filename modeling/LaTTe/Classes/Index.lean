import LaTTe.Classes.Dispatch
import LaTTe.Data.Loop
import Mathlib.Tactic.Linarith

namespace LaTTe.Classes

open LaTTe.Data

namespace Hierarchy

variable (h : Hierarchy)

def Virtual (c : Nat) (method : Method) : Prop :=
  method.isVirtual = true ∧ ∃ k ∈ h.ancestry c, method ∈ h.methods k

def Inherited (c : Nat) (method : Method) : Prop :=
  method.isVirtual = true ∧ ∃ k ∈ h.superclasses c, method ∈ h.methods k

def isNew (c : Nat) (method : Method) : Bool :=
  method.isVirtual &&
    (h.findAmong (h.superclasses c) method.name method.signature).isNone

def newCount (c : Nat) : Nat :=
  (h.methods c).countP (h.isNew c)

def tableSize (c : Nat) : Nat :=
  ((h.ancestry c).map h.newCount).sum

def NoClash (c : Nat) : Prop :=
  ∀ method ∈ h.methods c, ∀ k ∈ h.superclasses c, ∀ inherited ∈ h.methods k,
    method.Matches inherited → method.isStatic = inherited.isStatic

instance (c : Nat) : Decidable (h.NoClash c) :=
  inferInstanceAs (Decidable (∀ method ∈ h.methods c, ∀ k ∈ h.superclasses c,
    ∀ inherited ∈ h.methods k,
      method.Matches inherited → method.isStatic = inherited.isStatic))

theorem virtual_of_inherited {c : Nat} {method : Method}
    (inherited : h.Inherited c method) : h.Virtual c method := by
  obtain ⟨isVirtual, k, above, member⟩ := inherited
  refine ⟨isVirtual, k, ?_, member⟩
  rw [ancestry_eq]
  exact List.mem_cons_of_mem _ above

theorem virtual_of_mem {c : Nat} {method : Method} (isVirtual : method.isVirtual = true)
    (member : method ∈ h.methods c) : h.Virtual c method :=
  ⟨isVirtual, c, h.mem_ancestry_self c, member⟩

theorem virtual_cases {c : Nat} {method : Method} (visible : h.Virtual c method) :
    (method.isVirtual = true ∧ method ∈ h.methods c) ∨ h.Inherited c method := by
  obtain ⟨isVirtual, k, inAncestry, member⟩ := visible
  rw [ancestry_eq] at inAncestry
  rcases List.mem_cons.mp inAncestry with rfl | above
  · exact .inl ⟨isVirtual, member⟩
  · exact .inr ⟨isVirtual, k, above, member⟩

theorem inherited_iff_of_some {c super : Nat} (above : h.superclass c = some super)
    (method : Method) : h.Inherited c method ↔ h.Virtual super method := by
  rw [Inherited, h.superclasses_of_some above, Virtual]

theorem not_inherited_of_none {c : Nat} (root : h.superclass c = none) (method : Method) :
    ¬ h.Inherited c method := by
  rw [Inherited, h.superclasses_of_none root]
  simp

theorem inherited_owner_lt {c : Nat} {method : Method} (inherited : h.Inherited c method) :
    method.owner < c := by
  obtain ⟨_, k, above, member⟩ := inherited
  rw [h.owner_eq k method member]
  exact h.mem_superclasses_lt above

theorem tableSize_eq (c : Nat) :
    h.tableSize c = h.newCount c + ((h.superclasses c).map h.newCount).sum := by
  rw [tableSize, ancestry_eq, List.map_cons, List.sum_cons]

theorem tableSize_of_some {c super : Nat} (above : h.superclass c = some super) :
    h.tableSize c = h.newCount c + h.tableSize super := by
  rw [tableSize_eq, h.superclasses_of_some above, tableSize]

theorem overridden_inherited {c : Nat} (clash : h.NoClash c) {method overridden : Method}
    (member : method ∈ h.methods c) (isVirtual : method.isVirtual = true)
    (found : h.findAmong (h.superclasses c) method.name method.signature = some overridden) :
    h.Inherited c overridden ∧ method.Matches overridden := by
  obtain ⟨above, inherited, sameName, sameSignature⟩ := h.findAmong_eq_some found
  have matching : method.Matches overridden := ⟨sameName.symm, sameSignature.symm⟩
  have sameStatic := clash method member _ above overridden inherited matching
  rw [Method.isVirtual_iff] at isVirtual
  refine ⟨⟨?_, _, above, inherited⟩, matching⟩
  rw [Method.isVirtual_iff, ← sameStatic, sameName]
  exact isVirtual

end Hierarchy

/-! Giving indices.  The invariant of the loop is about the inherited methods and
those of the class that already have their index. -/

section

variable (h : Hierarchy) (c : Nat)

structure IndexFrame (vm next : Vm) : Prop where
  ncode : next.ncode = vm.ncode
  dtable : next.dtable = vm.dtable
  methodsInDtable : next.methodsInDtable = vm.methodsInDtable
  tramps : next.tramps = vm.tramps
  iidx : next.iidx = vm.iidx
  itSize : next.itSize = vm.itSize
  totalInterface : next.totalInterface = vm.totalInterface
  callSiteSet : next.callSiteSet = vm.callSiteSet

theorem assignIndex_frame (vm : Vm) (method : Method) :
    IndexFrame vm (assignIndex h c vm method) := by
  unfold assignIndex
  split
  · split
    · exact ⟨rfl, rfl, rfl, rfl, rfl, rfl, rfl, rfl⟩
    · exact ⟨rfl, rfl, rfl, rfl, rfl, rfl, rfl, rfl⟩
  · exact ⟨rfl, rfl, rfl, rfl, rfl, rfl, rfl, rfl⟩

theorem IndexFrame.trans {vm next last : Vm} (first : IndexFrame vm next)
    (second : IndexFrame next last) : IndexFrame vm last where
  ncode := second.ncode.trans first.ncode
  dtable := second.dtable.trans first.dtable
  methodsInDtable := second.methodsInDtable.trans first.methodsInDtable
  tramps := second.tramps.trans first.tramps
  iidx := second.iidx.trans first.iidx
  itSize := second.itSize.trans first.itSize
  totalInterface := second.totalInterface.trans first.totalInterface
  callSiteSet := second.callSiteSet.trans first.callSiteSet

/-- The methods that have an index when the loop has come by `done`. -/
def Known (done : List Method) (method : Method) : Prop :=
  h.Inherited c method ∨ (method.isVirtual = true ∧ method ∈ done)

structure Assigned (start : Vm) (done : List Method) (vm : Vm) : Prop where
  size : vm.msize c = (((h.superclasses c).map h.newCount).sum + done.countP (h.isNew c) : Nat)
  range : ∀ method, Known h c done method → 0 ≤ vm.idx method ∧ vm.idx method < vm.msize c
  index : ∀ method other, Known h c done method → Known h c done other →
    (vm.idx method = vm.idx other ↔ method.Matches other)
  onto : ∀ index, 0 ≤ index → index < vm.msize c →
    ∃ method, Known h c done method ∧ vm.idx method = index
  static : ∀ method ∈ done, method.isVirtual = false → vm.idx method = -1
  idx_eq : ∀ method, method ∉ done → vm.idx method = start.idx method
  msize_eq : ∀ k, k ≠ c → vm.msize k = start.msize k
  frame : IndexFrame start vm

variable {h c}

theorem assignIndex_static {vm : Vm} {method : Method} (static : method.isVirtual = false) :
    assignIndex h c vm method = vm.setIdx method (-1) := by
  rw [assignIndex, static]
  rfl

theorem assignIndex_new {vm : Vm} {method : Method} (isVirtual : method.isVirtual = true)
    (absent : h.findAmong (h.superclasses c) method.name method.signature = none) :
    assignIndex h c vm method =
      (vm.setIdx method (vm.msize c)).setMsize c (vm.msize c + 1) := by
  rw [assignIndex, isVirtual, absent]
  rfl

theorem assignIndex_overriding {vm : Vm} {method overridden : Method}
    (isVirtual : method.isVirtual = true)
    (found : h.findAmong (h.superclasses c) method.name method.signature = some overridden) :
    assignIndex h c vm method =
      markOverridden (vm.setIdx method (vm.idx overridden)) overridden := by
  rw [assignIndex, isVirtual, found]
  rfl

theorem known_append {done : List Method} {method other : Method} :
    Known h c (done ++ [method]) other ↔
      Known h c done other ∨ (method.isVirtual = true ∧ other = method) := by
  simp only [Known, List.mem_append, List.mem_singleton]
  constructor
  · rintro (inherited | ⟨isVirtual, before | rfl⟩)
    · exact .inl (.inl inherited)
    · exact .inl (.inr ⟨isVirtual, before⟩)
    · exact .inr ⟨isVirtual, rfl⟩
  · rintro ((inherited | ⟨isVirtual, before⟩) | ⟨isVirtual, rfl⟩)
    · exact .inl inherited
    · exact .inr ⟨isVirtual, .inl before⟩
    · exact .inr ⟨isVirtual, .inr rfl⟩

section

variable {start vm : Vm} {done : List Method} {method : Method}

theorem assignIndex_other {other : Method} (apart : other ≠ method) :
    (assignIndex h c vm method).idx other = vm.idx other := by
  unfold assignIndex
  split
  · split
    · rw [markOverridden_idx, Vm.setIdx_other _ _ apart]
    · rw [Vm.setMsize_idx, Vm.setIdx_other _ _ apart]
  · exact Vm.setIdx_other _ _ apart

theorem assignIndex_msize_other {k : Nat} (apart : k ≠ c) :
    (assignIndex h c vm method).msize k = vm.msize k := by
  unfold assignIndex
  split
  · split
    · rfl
    · rw [Vm.setMsize_other _ _ apart, Vm.setIdx_msize]
  · rfl

/-- A method without an index. -/
theorem Assigned.step_static (assigned : Assigned h c start done vm)
    (absent : method ∉ done) (static : method.isVirtual = false) :
    Assigned h c start (done ++ [method]) (assignIndex h c vm method) := by
  have same : ∀ other, Known h c (done ++ [method]) other ↔ Known h c done other := by
    intro other
    rw [known_append, static]
    simp
  have kept : ∀ other, Known h c done other →
      (assignIndex h c vm method).idx other = vm.idx other := by
    intro other known
    apply assignIndex_other
    rintro rfl
    rcases known with inherited | ⟨isVirtual, _⟩
    · rw [inherited.1] at static
      contradiction
    · rw [isVirtual] at static
      contradiction
  have size_eq : (assignIndex h c vm method).msize = vm.msize := by
    rw [assignIndex_static static, Vm.setIdx_msize]
  refine ⟨?_, ?_, ?_, ?_, ?_, ?_, ?_, assigned.frame.trans (assignIndex_frame h c vm method)⟩
  · have notNew : h.isNew c method = false := by
      rw [Hierarchy.isNew, static]
      rfl
    rw [size_eq, assigned.size, List.countP_append, List.countP_singleton, notNew]
    simp
  · intro other known
    rw [size_eq, kept other ((same other).mp known)]
    exact assigned.range other ((same other).mp known)
  · intro first second known known'
    rw [kept first ((same first).mp known), kept second ((same second).mp known')]
    exact assigned.index first second ((same first).mp known) ((same second).mp known')
  · intro index low high
    rw [size_eq] at high
    obtain ⟨other, known, at_index⟩ := assigned.onto index low high
    exact ⟨other, (same other).mpr known, by rw [kept other known, at_index]⟩
  · intro other member isStatic
    rcases List.mem_append.mp member with before | now
    · rw [assignIndex_other (show other ≠ method by rintro rfl; exact absent before)]
      exact assigned.static other before isStatic
    · rw [List.mem_singleton.mp now, assignIndex_static static]
      exact Vm.setIdx_self _ _ _
  · intro other notDone
    simp only [List.mem_append, List.mem_singleton, not_or] at notDone
    rw [assignIndex_other notDone.2]
    exact assigned.idx_eq other notDone.1
  · intro k apart
    rw [assignIndex_msize_other apart, assigned.msize_eq k apart]

/-- A method with an index: it remains to compare its index with the others. -/
theorem Assigned.step_virtual (assigned : Assigned h c start done vm)
    (absent : method ∉ done) (isVirtual : method.isVirtual = true)
    (fresh : ∀ other, Known h c done other → other ≠ method)
    (size : (assignIndex h c vm method).msize c =
      (((h.superclasses c).map h.newCount).sum +
        (done ++ [method]).countP (h.isNew c) : Nat))
    (grown : vm.msize c ≤ (assignIndex h c vm method).msize c)
    (range : 0 ≤ (assignIndex h c vm method).idx method ∧
      (assignIndex h c vm method).idx method < (assignIndex h c vm method).msize c)
    (index : ∀ other, Known h c done other →
      (vm.idx other = (assignIndex h c vm method).idx method ↔ other.Matches method))
    (onto : ∀ index, vm.msize c ≤ index → index < (assignIndex h c vm method).msize c →
      (assignIndex h c vm method).idx method = index) :
    Assigned h c start (done ++ [method]) (assignIndex h c vm method) := by
  have kept : ∀ other, Known h c done other →
      (assignIndex h c vm method).idx other = vm.idx other :=
    fun other known => assignIndex_other (fresh other known)
  refine ⟨size, ?_, ?_, ?_, ?_, ?_, ?_, assigned.frame.trans (assignIndex_frame h c vm method)⟩
  · intro other known
    rcases known_append.mp known with before | ⟨_, rfl⟩
    · obtain ⟨low, high⟩ := assigned.range other before
      rw [kept other before]
      exact ⟨low, Int.lt_of_lt_of_le high grown⟩
    · exact range
  · intro first second known known'
    rcases known_append.mp known with before | ⟨_, rfl⟩
    · rcases known_append.mp known' with before' | ⟨_, rfl⟩
      · rw [kept first before, kept second before']
        exact assigned.index first second before before'
      · rw [kept first before]
        exact index first before
    · rcases known_append.mp known' with before' | ⟨_, rfl⟩
      · rw [kept second before', eq_comm, index second before']
        exact ⟨Method.Matches.symm, Method.Matches.symm⟩
      · exact ⟨fun _ => ⟨rfl, rfl⟩, fun _ => rfl⟩
  · intro index low high
    by_cases old : index < vm.msize c
    · obtain ⟨other, known, at_index⟩ := assigned.onto index low old
      exact ⟨other, known_append.mpr (.inl known), by rw [kept other known, at_index]⟩
    · exact ⟨method, known_append.mpr (.inr ⟨isVirtual, rfl⟩), onto index (by omega) high⟩
  · intro other member isStatic
    rcases List.mem_append.mp member with before | now
    · rw [assignIndex_other (show other ≠ method by rintro rfl; exact absent before)]
      exact assigned.static other before isStatic
    · rw [List.mem_singleton.mp now, isVirtual] at isStatic
      contradiction
  · intro other notDone
    simp only [List.mem_append, List.mem_singleton, not_or] at notDone
    rw [assignIndex_other notDone.2]
    exact assigned.idx_eq other notDone.1
  · intro k apart
    rw [assignIndex_msize_other apart, assigned.msize_eq k apart]

theorem fresh_of_mem (member : method ∈ h.methods c) (absent : method ∉ done) :
    ∀ other, Known h c done other → other ≠ method := by
  rintro other (inherited | ⟨_, before⟩) rfl
  · have := h.inherited_owner_lt inherited
    rw [h.owner_eq c other member] at this
    omega
  · exact absent before

theorem absent_of_split {rest : List Method} (split : h.methods c = done ++ method :: rest) :
    method ∉ done := by
  have nodup := h.nodup_methods c
  rw [split, List.nodup_append] at nodup
  intro before
  exact nodup.2.2 method before method List.mem_cons_self rfl

theorem room_of_split {rest : List Method} (split : h.methods c = done ++ method :: rest) :
    ((h.superclasses c).map h.newCount).sum + (done ++ [method]).countP (h.isNew c) ≤
      h.tableSize c := by
  have whole : h.newCount c =
      (done ++ [method]).countP (h.isNew c) + rest.countP (h.isNew c) := by
    rw [Hierarchy.newCount, split, List.append_cons, List.countP_append]
  rw [h.tableSize_eq, whole]
  omega

theorem Assigned.step (clash : h.NoClash c) (fits : h.tableSize c < 2 ^ 15) {rest : List Method}
    (split : h.methods c = done ++ method :: rest) (assigned : Assigned h c start done vm) :
    Assigned h c start (done ++ [method]) (assignIndex h c vm method) := by
  have member : method ∈ h.methods c := by simp [split]
  have absent := absent_of_split split
  have fresh := fresh_of_mem (h := h) member absent
  have room := room_of_split split
  have size := assigned.size
  cases isVirtual : method.isVirtual with
  | false => exact assigned.step_static absent isVirtual
  | true =>
      cases found : h.findAmong (h.superclasses c) method.name method.signature with
      | none =>
          have isNew : h.isNew c method = true := by
            simp [Hierarchy.isNew, isVirtual, found]
          rw [List.countP_append, List.countP_singleton, isNew] at room
          simp only [if_true] at room
          have idx_eq : (assignIndex h c vm method).idx method = vm.msize c := by
            rw [assignIndex_new isVirtual found, Vm.setMsize_idx, Vm.setIdx_self,
              toShort_of_lt (by omega) (by omega)]
          have size_eq : (assignIndex h c vm method).msize c = vm.msize c + 1 := by
            rw [assignIndex_new isVirtual found, Vm.setMsize_self,
              toShort_of_lt (by omega) (by omega)]
          refine assigned.step_virtual absent isVirtual fresh ?_ (by omega) (by omega) ?_ ?_
          · rw [size_eq, size, List.countP_append, List.countP_singleton, isNew]
            simp only [if_true]
            omega
          · intro other known
            rw [idx_eq]
            constructor
            · intro equal
              have := (assigned.range other known).2
              omega
            · intro matching
              rcases known with ⟨_, k, above, inherited⟩ | ⟨_, before⟩
              · exact absurd matching (h.findAmong_eq_none found above inherited)
              · exact absurd (h.distinct_methods (by simp [split, before]) member matching)
                  (fresh other (.inr ⟨‹_›, before⟩))
          · intro index low high
            omega
      | some overridden =>
          obtain ⟨inherited, matching⟩ := h.overridden_inherited clash member isVirtual found
          have known : Known h c done overridden := .inl inherited
          have notNew : h.isNew c method = false := by
            simp [Hierarchy.isNew, found]
          obtain ⟨low, high⟩ := assigned.range overridden known
          rw [List.countP_append, List.countP_singleton, notNew] at room
          have idx_eq : (assignIndex h c vm method).idx method = vm.idx overridden := by
            rw [assignIndex_overriding isVirtual found, markOverridden_idx, Vm.setIdx_self,
              toShort_of_lt (by omega) (by omega)]
          have size_eq : (assignIndex h c vm method).msize c = vm.msize c := by
            rw [assignIndex_overriding isVirtual found, markOverridden_msize, Vm.setIdx_msize]
          refine assigned.step_virtual absent isVirtual fresh ?_ (by omega) (by omega) ?_ ?_
          · rw [size_eq, size, List.countP_append, List.countP_singleton, notNew]
            simp
          · intro other knownOther
            rw [idx_eq, assigned.index other overridden knownOther known]
            exact ⟨fun first => first.trans matching.symm, fun first => first.trans matching⟩
          · intro index _ _
            omega

theorem assignIndex_loop (clash : h.NoClash c) (fits : h.tableSize c < 2 ^ 15)
    (initially : Assigned h c start [] vm) :
    Assigned h c start (h.methods c) ((h.methods c).foldl (assignIndex h c) vm) :=
  foldl_prefix (Assigned h c start)
    (fun _ _ _ _ split assigned => assigned.step clash fits split) initially

end

end

end LaTTe.Classes
