import LaTTe.Classes.Table
import Mathlib.Logic.Relation

namespace LaTTe.Classes

open LaTTe.Data

namespace Hierarchy

variable (h : Hierarchy)

def Extends : Nat → Nat → Prop :=
  Relation.TransGen fun c i => i ∈ h.interfaces c

/-- An interface that a class implements directly, by inheritance or through
superinterfaces. -/
def Implements (c i : Nat) : Prop :=
  ∃ k ∈ h.ancestry c, h.Extends k i

theorem extends_lt {c i : Nat} (extension : h.Extends c i) : i < c := by
  induction extension with
  | single member => exact h.interface_lt _ _ member
  | tail _ member ih => exact Nat.lt_trans (h.interface_lt _ _ member) ih

theorem extends_interface {c i : Nat} (extension : h.Extends c i) :
    h.isInterface i = true := by
  cases extension with
  | single member => exact h.interface_interface _ _ member
  | tail _ member => exact h.interface_interface _ _ member

theorem implements_lt {c i : Nat} (implementation : h.Implements c i) : i < c := by
  obtain ⟨k, inAncestry, extension⟩ := implementation
  exact Nat.lt_of_lt_of_le (h.extends_lt extension) (h.mem_ancestry_le inAncestry)

theorem implements_interface {c i : Nat} (implementation : h.Implements c i) :
    h.isInterface i = true := by
  obtain ⟨k, _, extension⟩ := implementation
  exact h.extends_interface extension

end Hierarchy

/-! The numbers of interface methods. -/

section

variable {h : Hierarchy} {c : Nat} {vm : Vm}

structure Numbered (h : Hierarchy) (count : Nat) (vm : Vm) : Prop where
  total : 1 ≤ vm.totalInterface
  size : ∀ k < count, 0 ≤ vm.itSize k ∧ vm.itSize k < vm.totalInterface
  fresh : ∀ k, count ≤ k → vm.itSize k = 0
  range : ∀ i < count, h.isInterface i = true → ∀ method ∈ h.methods i,
    1 ≤ vm.iidx method ∧ vm.iidx method ≤ vm.itSize i
  matching : ∀ i < count, h.isInterface i = true → ∀ method ∈ h.methods i,
    ∀ j < count, h.isInterface j = true → ∀ other ∈ h.methods j,
    vm.iidx method = vm.iidx other → method.Matches other
  interface_le : ∀ k < count, ∀ i ∈ h.interfaces k, vm.itSize i ≤ vm.itSize k
  superclass_le : ∀ k < count, h.isInterface k = false → ∀ super,
    h.superclass k = some super → vm.itSize super ≤ vm.itSize k

theorem raiseItSize_spec (c : Nat) (interfaces : List Nat) (vm : Vm) (apart : c ∉ interfaces)
    {bound : Int} (below : vm.itSize c < bound) (each : ∀ i ∈ interfaces, vm.itSize i < bound) :
    let raised := interfaces.foldl (raiseItSize c) vm
    (∀ k, k ≠ c → raised.itSize k = vm.itSize k) ∧ vm.itSize c ≤ raised.itSize c ∧
      raised.itSize c < bound ∧ ∀ i ∈ interfaces, raised.itSize i ≤ raised.itSize c := by
  induction interfaces generalizing vm with
  | nil => exact ⟨fun _ _ => rfl, Int.le_refl _, below, by simp⟩
  | cons i rest ih =>
      have different : i ≠ c := fun same => apart (by simp [same])
      have step : (∀ k, k ≠ c → (raiseItSize c vm i).itSize k = vm.itSize k) ∧
          vm.itSize c ≤ (raiseItSize c vm i).itSize c ∧
          vm.itSize i ≤ (raiseItSize c vm i).itSize c ∧
          (raiseItSize c vm i).itSize c < bound := by
        have small := each i (by simp)
        unfold raiseItSize
        split
        · rename_i smaller
          refine ⟨fun k other => Function.update_of_ne other _ _, ?_, ?_, ?_⟩
          all_goals simp only [Vm.setItSize, Function.update_self]; omega
        · rename_i larger
          exact ⟨fun _ _ => rfl, Int.le_refl _, by omega, below⟩
      obtain ⟨others, grown, covers, bounded⟩ := step
      obtain ⟨others', grown', bounded', covers'⟩ := ih (raiseItSize c vm i)
        (fun member => apart (by simp [member])) bounded
        (fun j member => by
          rw [others j (fun same => apart (by simp [← same, member]))]
          exact each j (by simp [member]))
      refine ⟨fun k other => (others' k other).trans (others k other), Int.le_trans grown grown',
        bounded', ?_⟩
      intro j member
      rcases List.mem_cons.mp member with rfl | later
      · rw [List.foldl_cons, others' j different, others j different]
        exact Int.le_trans covers grown'
      · exact covers' j later

/-- A method that has its number when the methods in `done` of the interface `c` have
theirs. -/
def HasNumber (h : Hierarchy) (c : Nat) (done : List Method) (method : Method) : Prop :=
  (∃ i < c, h.isInterface i = true ∧ method ∈ h.methods i) ∨ method ∈ done

structure Numbering (h : Hierarchy) (c : Nat) (start : Vm) (done : List Method) (vm : Vm) :
    Prop where
  others : ∀ k, k ≠ c → vm.itSize k = start.itSize k
  iidx : ∀ method, method ∉ done → vm.iidx method = start.iidx method
  total : 1 ≤ vm.totalInterface
  grown : start.totalInterface ≤ vm.totalInterface
  covers : ∀ i ∈ h.interfaces c, vm.itSize i ≤ vm.itSize c
  size : 0 ≤ vm.itSize c ∧ vm.itSize c < vm.totalInterface
  low : ∀ method, HasNumber h c done method → 1 ≤ vm.iidx method
  high : ∀ method, HasNumber h c done method → vm.iidx method < vm.totalInterface
  inside : ∀ method ∈ done, vm.iidx method ≤ vm.itSize c
  matching : ∀ method other, HasNumber h c done method → HasNumber h c done other →
    vm.iidx method = vm.iidx other → method.Matches other

theorem hasNumber_append {done : List Method} {method other : Method}
    (numbered : HasNumber h c (done ++ [method]) other) :
    HasNumber h c done other ∨ other = method := by
  rcases numbered with earlier | member
  · exact .inl (.inl earlier)
  · rcases List.mem_append.mp member with before | now
    · exact .inl (.inr before)
    · exact .inr (List.mem_singleton.mp now)

/-- One more number, which is new or that of a method of the same name. -/
theorem Numbering.step {start next : Vm} {done : List Method} {method : Method}
    (numbering : Numbering h c start done vm) (fresh : ¬ HasNumber h c done method)
    (others : ∀ k, k ≠ c → next.itSize k = vm.itSize k)
    (iidx : ∀ other, other ≠ method → next.iidx other = vm.iidx other)
    (apart : c ∉ h.interfaces c)
    (grown : vm.totalInterface ≤ next.totalInterface) (wider : vm.itSize c ≤ next.itSize c)
    (size : next.itSize c < next.totalInterface)
    (inside : next.iidx method ≤ next.itSize c) (low : 1 ≤ next.iidx method)
    (matching : ∀ other, HasNumber h c done other → vm.iidx other = next.iidx method →
      method.Matches other) :
    Numbering h c start (done ++ [method]) next := by
  have kept : ∀ other, HasNumber h c done other → next.iidx other = vm.iidx other :=
    fun other known => iidx other fun same => fresh (same ▸ known)
  refine ⟨?_, ?_, Int.le_trans numbering.total grown, Int.le_trans numbering.grown grown,
    ?_, ⟨Int.le_trans numbering.size.1 wider, size⟩, ?_, ?_, ?_, ?_⟩
  · exact fun k different => (others k different).trans (numbering.others k different)
  · intro other absent
    rw [List.mem_append, not_or] at absent
    rw [iidx other (by simpa using absent.2), numbering.iidx other absent.1]
  · intro i member
    rw [others i fun same => apart (same ▸ member)]
    exact Int.le_trans (numbering.covers i member) wider
  · intro other known
    rcases hasNumber_append known with before | rfl
    · rw [kept other before]
      exact numbering.low other before
    · exact low
  · intro other known
    rcases hasNumber_append known with before | rfl
    · rw [kept other before]
      exact Int.lt_of_lt_of_le (numbering.high other before) grown
    · exact Int.lt_of_le_of_lt inside size
  · intro other member
    rcases List.mem_append.mp member with before | now
    · rw [kept other (.inr before)]
      exact Int.le_trans (numbering.inside other before) wider
    · rw [List.mem_singleton.mp now]
      exact inside
  · intro first second known known' equal
    rcases hasNumber_append known with before | rfl
    · rcases hasNumber_append known' with before' | rfl
      · rw [kept first before, kept second before'] at equal
        exact numbering.matching first second before before' equal
      · rw [kept first before] at equal
        exact (matching first before equal).symm
    · rcases hasNumber_append known' with before' | rfl
      · rw [kept second before'] at equal
        exact matching second before' equal.symm
      · exact ⟨rfl, rfl⟩

theorem mem_comparedMethods {method : Method} (member : method ∈ comparedMethods h c) :
    ∃ i ∈ h.interfaces c, method ∈ h.methods i := by
  obtain ⟨i, inInterfaces, compared⟩ := List.mem_flatMap.mp member
  exact ⟨i, inInterfaces, List.dropLast_subset _ compared⟩

theorem not_mem_own_interfaces (h : Hierarchy) (c : Nat) : c ∉ h.interfaces c :=
  fun member => Nat.lt_irrefl c (h.interface_lt c c member)

theorem Numbering.method {start : Vm} {done : List Method} {method : Method}
    (numbering : Numbering h c start done vm) (fresh : ¬ HasNumber h c done method)
    (bounded : ∀ i ∈ h.interfaces c, ∀ other ∈ h.methods i, vm.iidx other ≤ vm.itSize i) :
    Numbering h c start (done ++ [method]) (numberInterfaceMethod h c vm method) := by
  unfold numberInterfaceMethod
  split
  · rename_i other search
    rw [List.findRev?_eq_find?_reverse] at search
    obtain ⟨i, inInterfaces, member⟩ :=
      mem_comparedMethods (List.mem_reverse.mp (List.mem_of_find?_eq_some search))
    have matching : method.Matches other := by
      have compared := List.find?_some search
      simpa using compared
    have known : HasNumber h c done other :=
      .inl ⟨i, h.interface_lt c i inInterfaces, h.interface_interface c i inInterfaces, member⟩
    have number : (vm.setIidx method (vm.iidx other)).iidx method = vm.iidx other :=
      Function.update_self _ _ _
    refine numbering.step fresh (fun _ _ => rfl)
      (fun _ apart => Function.update_of_ne apart _ _) (not_mem_own_interfaces h c)
      (Int.le_refl _) (Int.le_refl _) numbering.size.2 ?_ ?_ ?_
    · rw [number]
      exact Int.le_trans (bounded i inInterfaces other member)
        (numbering.covers i inInterfaces)
    · rw [number]
      exact numbering.low other known
    · intro third known' equal
      rw [number] at equal
      exact matching.trans (numbering.matching third other known' known equal).symm
  · have number : (newInterfaceIndex c vm method).iidx method = vm.totalInterface :=
      Function.update_self _ _ _
    have size : (newInterfaceIndex c vm method).itSize c = vm.totalInterface :=
      Function.update_self _ _ _
    have total : (newInterfaceIndex c vm method).totalInterface = vm.totalInterface + 1 := rfl
    have before := numbering.size.2
    refine numbering.step fresh (fun _ apart => Function.update_of_ne apart _ _)
      (fun _ apart => Function.update_of_ne apart _ _) (not_mem_own_interfaces h c)
      (by omega) (by omega) (by omega) (by omega) ?_ ?_
    · rw [number]
      exact numbering.total
    · intro other known equal
      have := numbering.high other known
      omega

structure NumberFrame (c : Nat) (vm next : Vm) : Prop where
  iidx : ∀ method, method.owner ≠ c → next.iidx method = vm.iidx method
  itSize : ∀ k, k ≠ c → next.itSize k = vm.itSize k
  total : vm.totalInterface ≤ next.totalInterface

theorem owner_lt_of_mem {count i : Nat} {method : Method} (earlier : i < count)
    (member : method ∈ h.methods i) : method.owner ≠ count := by
  rw [h.owner_eq i method member]
  exact Nat.ne_of_lt earlier

/-- The numbering after one more class. -/
theorem Numbered.extend (numbered : Numbered h c vm) {next : Vm} (frame : NumberFrame c vm next)
    (size : 0 ≤ next.itSize c ∧ next.itSize c < next.totalInterface)
    (range : h.isInterface c = true → ∀ method ∈ h.methods c,
      1 ≤ next.iidx method ∧ next.iidx method ≤ next.itSize c)
    (matching : h.isInterface c = true → ∀ method ∈ h.methods c,
      ∀ j < c + 1, h.isInterface j = true → ∀ other ∈ h.methods j,
      next.iidx method = next.iidx other → method.Matches other)
    (interfaces : ∀ i ∈ h.interfaces c, next.itSize i ≤ next.itSize c)
    (super : h.isInterface c = false → ∀ super, h.superclass c = some super →
      next.itSize super ≤ next.itSize c) :
    Numbered h (c + 1) next := by
  have iidx : ∀ {i}, i < c → ∀ method ∈ h.methods i, next.iidx method = vm.iidx method :=
    fun below method member => frame.iidx method (owner_lt_of_mem below member)
  have itSize : ∀ {k}, k < c → next.itSize k = vm.itSize k :=
    fun below => frame.itSize _ (Nat.ne_of_lt below)
  refine ⟨Int.le_trans numbered.total frame.total, ?_, ?_, ?_, ?_, ?_, ?_⟩
  · intro k below
    rcases Nat.lt_succ_iff_lt_or_eq.mp below with before | rfl
    · rw [itSize before]
      exact ⟨(numbered.size k before).1,
        Int.lt_of_lt_of_le (numbered.size k before).2 frame.total⟩
    · exact size
  · intro k above
    rw [frame.itSize k (by omega)]
    exact numbered.fresh k (by omega)
  · intro i below isInterface method member
    rcases Nat.lt_succ_iff_lt_or_eq.mp below with before | rfl
    · rw [iidx before method member, itSize before]
      exact numbered.range i before isInterface method member
    · exact range isInterface method member
  · intro i below isInterface method member j below' isInterface' other member' equal
    rcases Nat.lt_succ_iff_lt_or_eq.mp below with before | rfl
    · rcases Nat.lt_succ_iff_lt_or_eq.mp below' with before' | rfl
      · rw [iidx before method member, iidx before' other member'] at equal
        exact numbered.matching i before isInterface method member j before' isInterface' other
          member' equal
      · exact (matching isInterface' other member' i below isInterface method member
          equal.symm).symm
    · exact matching isInterface method member j below' isInterface' other member' equal
  · intro k below i member
    rcases Nat.lt_succ_iff_lt_or_eq.mp below with before | rfl
    · rw [itSize before, itSize (Nat.lt_trans (h.interface_lt k i member) before)]
      exact numbered.interface_le k before i member
    · exact interfaces i member
  · intro k below isClass first isSuper
    rcases Nat.lt_succ_iff_lt_or_eq.mp below with before | rfl
    · rw [itSize before, itSize (Nat.lt_trans (h.superclass_lt k first isSuper) before)]
      exact numbered.superclass_le k before isClass first isSuper
    · exact super isClass first isSuper

theorem Numbered.congr {count : Nat} (numbered : Numbered h count vm) {next : Vm}
    (total : next.totalInterface = vm.totalInterface) (itSize : next.itSize = vm.itSize)
    (iidx : ∀ i < count, h.isInterface i = true → ∀ method ∈ h.methods i,
      next.iidx method = vm.iidx method) : Numbered h count next := by
  refine ⟨?_, ?_, ?_, ?_, ?_, ?_, ?_⟩
  · rw [total]
    exact numbered.total
  · rw [itSize, total]
    exact numbered.size
  · rw [itSize]
    exact numbered.fresh
  · intro i below isInterface method member
    rw [iidx i below isInterface method member, itSize]
    exact numbered.range i below isInterface method member
  · intro i below isInterface method member j below' isInterface' other member'
    rw [iidx i below isInterface method member, iidx j below' isInterface' other member']
    exact numbered.matching i below isInterface method member j below' isInterface' other member'
  · rw [itSize]
    exact numbered.interface_le
  · rw [itSize]
    exact numbered.superclass_le

theorem Numbered.raise (numbered : Numbered h c vm) :
    Numbering h c vm [] ((h.interfaces c).foldl (raiseItSize c) vm) := by
  have fresh := numbered.fresh c (Nat.le_refl c)
  have positive := numbered.total
  have below : vm.itSize c < vm.totalInterface := by omega
  have raised := raiseItSize_spec c (h.interfaces c) vm (not_mem_own_interfaces h c) below
    fun i member => (numbered.size i (h.interface_lt c i member)).2
  rw [raiseItSize_loop] at raised ⊢
  obtain ⟨others, wider, bounded, covers⟩ := raised
  have known : ∀ {method}, HasNumber h c [] method →
      ∃ i < c, h.isInterface i = true ∧ method ∈ h.methods i := by
    rintro method (earlier | done)
    · exact earlier
    · simp at done
  refine ⟨others, fun _ _ => rfl, positive, Int.le_refl _, covers,
    ⟨by rw [fresh] at wider; exact wider, bounded⟩, ?_, ?_, by simp, ?_⟩
  · intro method hasNumber
    obtain ⟨i, earlier, isInterface, member⟩ := known hasNumber
    exact (numbered.range i earlier isInterface method member).1
  · intro method hasNumber
    obtain ⟨i, earlier, isInterface, member⟩ := known hasNumber
    exact Int.lt_of_le_of_lt (numbered.range i earlier isInterface method member).2
      (numbered.size i earlier).2
  · intro method other hasNumber hasNumber' equal
    obtain ⟨i, earlier, isInterface, member⟩ := known hasNumber
    obtain ⟨j, earlier', isInterface', member'⟩ := known hasNumber'
    exact numbered.matching i earlier isInterface method member j earlier' isInterface' other
      member' equal

theorem numberInterface_loop (numbered : Numbered h c vm) :
    Numbering h c vm (h.methods c) (numberInterface h c vm) := by
  refine foldl_prefix (Numbering h c vm) ?_ numbered.raise
  intro done method rest state split numbering
  have inClass : ∀ other ∈ done, other ∈ h.methods c := by
    intro other before
    simp [split, before]
  have member : method ∈ h.methods c := by simp [split]
  apply numbering.method
  · rintro (⟨i, earlier, _, inherited⟩ | before)
    · exact owner_lt_of_mem earlier inherited (h.owner_eq c method member)
    · have nodup := h.nodup_methods c
      rw [split, List.nodup_append] at nodup
      exact nodup.2.2 method before method List.mem_cons_self rfl
  · intro i inInterfaces other inInterface
    have earlier := h.interface_lt c i inInterfaces
    rw [numbering.others i (Nat.ne_of_lt earlier), numbering.iidx other]
    · exact (numbered.range i earlier (h.interface_interface c i inInterfaces) other
        inInterface).2
    · intro before
      exact owner_lt_of_mem earlier inInterface (h.owner_eq c other (inClass other before))

theorem numberInterface_numbered (numbered : Numbered h c vm)
    (isInterface : h.isInterface c = true) :
    NumberFrame c vm (numberInterface h c vm) ∧ Numbered h (c + 1) (numberInterface h c vm) := by
  have numbering := numberInterface_loop numbered
  have frame : NumberFrame c vm (numberInterface h c vm) := by
    refine ⟨?_, numbering.others, numbering.grown⟩
    intro method apart
    exact numbering.iidx method fun member => apart (h.owner_eq c method member)
  refine ⟨frame, numbered.extend frame numbering.size ?_ ?_ numbering.covers ?_⟩
  · intro _ method member
    exact ⟨numbering.low method (.inr member), numbering.inside method member⟩
  · intro _ method member j below isInterface' other member'
    apply numbering.matching method other (.inr member)
    rcases Nat.lt_succ_iff_lt_or_eq.mp below with before | rfl
    · exact .inl ⟨j, before, isInterface', member'⟩
    · exact .inr member'
  · intro isClass
    rw [isInterface] at isClass
    contradiction

end

end LaTTe.Classes
