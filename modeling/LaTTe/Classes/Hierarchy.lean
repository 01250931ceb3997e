import Mathlib.Data.List.Nodup
import Mathlib.Data.List.Pairwise
import Mathlib.Algebra.Group.Int.Defs
import Mathlib.Algebra.Group.Nat.Defs

namespace LaTTe.Classes

/-! Loaded classes.  A class is known by its place in the order in which the
classes are prepared, so a superclass and an interface have smaller numbers than
the class that names them. -/

def toShort (value : Int) : Int :=
  value.bmod (2 ^ 16)

theorem toShort_of_lt {value : Int} (low : -(2 ^ 15) ≤ value) (high : value < 2 ^ 15) :
    toShort value = value := by
  unfold toShort
  apply Int.bmod_eq_of_le
  · simpa using low
  · simpa using high

structure Method where
  owner : Nat
  name : String
  signature : String
  isStatic : Bool
  deriving DecidableEq, Repr

def constructorName : String := "<init>"

def initName : String := "<clinit>"

namespace Method

/-- `equalUtf8Consts` of both the names and the signatures. -/
def Matches (method other : Method) : Prop :=
  method.name = other.name ∧ method.signature = other.signature

instance (method other : Method) : Decidable (method.Matches other) :=
  inferInstanceAs (Decidable (_ ∧ _))

/-- The methods that `buildDispatchTable` gives an index. -/
def isVirtual (method : Method) : Bool :=
  !(method.isStatic || method.name == constructorName)

theorem Matches.symm {method other : Method} (matching : method.Matches other) :
    other.Matches method :=
  ⟨matching.1.symm, matching.2.symm⟩

theorem Matches.trans {method other third : Method}
    (first : method.Matches other) (second : other.Matches third) :
    method.Matches third :=
  ⟨first.1.trans second.1, first.2.trans second.2⟩

theorem isVirtual_iff (method : Method) :
    method.isVirtual = true ↔
      method.isStatic = false ∧ method.name ≠ constructorName := by
  simp [isVirtual]

end Method

/-- A class file as far as the dispatch tables depend on it.  `methods_count` is a
`u2`, and `addMethod` does not allow duplicates. -/
structure ClassFile where
  superclass : Option Nat
  interfaces : List Nat
  isInterface : Bool
  isAbstract : Bool
  methods : List Method
  distinct : methods.Pairwise fun method other => ¬ method.Matches other
  counted : methods.length < 2 ^ 16

structure Hierarchy where
  classes : Nat → ClassFile
  declared_owner : ∀ c, ∀ method ∈ (classes c).methods, method.owner = c
  superclass_lt : ∀ c super, (classes c).superclass = some super → super < c
  superclass_class : ∀ c super, (classes c).superclass = some super →
    (classes super).isInterface = false
  interface_lt : ∀ c, ∀ i ∈ (classes c).interfaces, i < c
  interface_interface : ∀ c, ∀ i ∈ (classes c).interfaces,
    (classes i).isInterface = true

def ClassFile.empty : ClassFile where
  superclass := none
  interfaces := []
  isInterface := false
  isAbstract := false
  methods := []
  distinct := List.Pairwise.nil
  counted := by decide

namespace Hierarchy

def fileAt (files : List ClassFile) (c : Nat) : ClassFile :=
  files.getD c ClassFile.empty

/-- What a class refers to lies before it and is of the right kind. -/
def Ordered (files : List ClassFile) (c : Nat) : Prop :=
  (∀ method ∈ (fileAt files c).methods, method.owner = c) ∧
    (∀ super ∈ (fileAt files c).superclass, super < c ∧
      (fileAt files super).isInterface = false) ∧
    ∀ i ∈ (fileAt files c).interfaces, i < c ∧ (fileAt files i).isInterface = true

instance (files : List ClassFile) (c : Nat) : Decidable (Ordered files c) :=
  inferInstanceAs (Decidable (_ ∧ _ ∧ _))

theorem ordered_of_length_le (files : List ClassFile) {c : Nat} (beyond : files.length ≤ c) :
    Ordered files c := by
  have nothing : fileAt files c = ClassFile.empty := by
    rw [fileAt, List.getD, List.getElem?_eq_none beyond]
    rfl
  unfold Ordered
  rw [nothing]
  exact ⟨by simp [ClassFile.empty], by simp [ClassFile.empty], by simp [ClassFile.empty]⟩

def ofList (files : List ClassFile) (each : ∀ c < files.length, Ordered files c) :
    Hierarchy where
  classes := fileAt files
  declared_owner := fun c => (all files each c).1
  superclass_lt := fun c super above => ((all files each c).2.1 super above).1
  superclass_class := fun c super above => ((all files each c).2.1 super above).2
  interface_lt := fun c i member => ((all files each c).2.2 i member).1
  interface_interface := fun c i member => ((all files each c).2.2 i member).2
where
  all (files : List ClassFile) (each : ∀ c < files.length, Ordered files c) (c : Nat) :
      Ordered files c :=
    (Nat.lt_or_ge c files.length).elim (each c) (ordered_of_length_le files)

variable (h : Hierarchy)

def declared (c : Nat) : List Method :=
  (h.classes c).methods

/-- The methods that the loops over a class meet.  `nmethods` is a `short`, which
from `2 ^ 15` methods on is negative and ends them at once. -/
def methods (c : Nat) : List Method :=
  if (h.declared c).length < 2 ^ 15 then h.declared c else []

def superclass (c : Nat) : Option Nat :=
  (h.classes c).superclass

def interfaces (c : Nat) : List Nat :=
  (h.classes c).interfaces

def isInterface (c : Nat) : Bool :=
  (h.classes c).isInterface

private def climb : Nat → Nat → List Nat
  | 0, _ => []
  | fuel + 1, c =>
      c :: match h.superclass c with
        | none => []
        | some super => climb fuel super

def ancestry (c : Nat) : List Nat :=
  h.climb (c + 1) c

def superclasses (c : Nat) : List Nat :=
  match h.superclass c with
  | none => []
  | some super => h.ancestry super

def findMethodLocal (c : Nat) (name signature : String) : Option Method :=
  (h.methods c).find? fun method =>
    decide (method.name = name ∧ method.signature = signature)

def findAmong (classes : List Nat) (name signature : String) : Option Method :=
  classes.findSome? fun c => h.findMethodLocal c name signature

def findMethod (c : Nat) (name signature : String) : Option Method :=
  h.findAmong (h.ancestry c) name signature

private theorem climb_eq {fuel more : Nat} {c : Nat} (enough : c < fuel)
    (enough' : c < more) : h.climb fuel c = h.climb more c := by
  induction fuel generalizing more c with
  | zero => omega
  | succ fuel ih =>
      cases more with
      | zero => omega
      | succ more =>
          cases super : h.superclass c with
          | none => simp only [climb, super]
          | some above =>
              have smaller := h.superclass_lt c above super
              simp only [climb, super]
              rw [ih (show above < fuel by omega) (show above < more by omega)]

theorem ancestry_eq (c : Nat) : h.ancestry c = c :: h.superclasses c := by
  rw [ancestry, climb, superclasses]
  cases super : h.superclass c with
  | none => rfl
  | some above =>
      have smaller := h.superclass_lt c above super
      simp only [ancestry]
      rw [h.climb_eq smaller (Nat.lt_succ_self above)]

theorem superclasses_of_none {c : Nat} (root : h.superclass c = none) :
    h.superclasses c = [] := by
  rw [superclasses, root]

theorem superclasses_of_some {c super : Nat} (above : h.superclass c = some super) :
    h.superclasses c = h.ancestry super := by
  rw [superclasses, above]

@[simp] theorem mem_ancestry_self (c : Nat) : c ∈ h.ancestry c := by
  rw [ancestry_eq]
  exact List.mem_cons_self

theorem superclass_induction {motive : Nat → Prop}
    (step : ∀ c, (∀ super, h.superclass c = some super → motive super) → motive c)
    (c : Nat) : motive c := by
  induction c using Nat.strongRecOn with
  | ind c ih => exact step c fun super above => ih super (h.superclass_lt c super above)

theorem mem_superclasses_lt {c super : Nat} (member : super ∈ h.superclasses c) :
    super < c := by
  induction c using h.superclass_induction with
  | step c ih =>
      cases above : h.superclass c with
      | none => simp [h.superclasses_of_none above] at member
      | some first =>
          have smaller := h.superclass_lt c first above
          rw [h.superclasses_of_some above, ancestry_eq] at member
          rcases List.mem_cons.mp member with rfl | later
          · exact smaller
          · exact Nat.lt_trans (ih first above later) smaller

theorem mem_ancestry_le {c super : Nat} (member : super ∈ h.ancestry c) :
    super ≤ c := by
  rw [ancestry_eq] at member
  rcases List.mem_cons.mp member with rfl | later
  · exact Nat.le_refl _
  · exact Nat.le_of_lt (h.mem_superclasses_lt later)

theorem superclasses_class {c super : Nat} (member : super ∈ h.superclasses c) :
    h.isInterface super = false := by
  induction c using h.superclass_induction with
  | step c ih =>
      cases above : h.superclass c with
      | none => simp [h.superclasses_of_none above] at member
      | some first =>
          rw [h.superclasses_of_some above, ancestry_eq] at member
          rcases List.mem_cons.mp member with rfl | later
          · exact h.superclass_class c _ above
          · exact ih first above later

theorem methods_of_short {c : Nat} (short : (h.declared c).length < 2 ^ 15) :
    h.methods c = h.declared c :=
  if_pos short

theorem methods_of_long {c : Nat} (long : 2 ^ 15 ≤ (h.declared c).length) :
    h.methods c = [] :=
  if_neg (Nat.not_lt.mpr long)

theorem methods_eq_take (c : Nat) :
    h.methods c = (h.declared c).take (toShort (h.declared c).length).toNat := by
  have counted : (h.declared c).length < 2 ^ 16 := (h.classes c).counted
  rcases Nat.lt_or_ge (h.declared c).length (2 ^ 15) with short | long
  · rw [h.methods_of_short short, toShort_of_lt (by omega) (by omega), Int.toNat_natCast,
      List.take_length]
  · have wrapped : (toShort (h.declared c).length).toNat = 0 := by
      unfold toShort
      rw [Int.bmod_def]
      split <;> omega
    rw [h.methods_of_long long, wrapped, List.take_zero]

theorem declared_of_mem {c : Nat} {method : Method} (member : method ∈ h.methods c) :
    method ∈ h.declared c := by
  rw [methods_eq_take] at member
  exact List.mem_of_mem_take member

theorem owner_eq (c : Nat) (method : Method) (member : method ∈ h.methods c) :
    method.owner = c :=
  h.declared_owner c method (h.declared_of_mem member)

theorem distinct_declared {c : Nat} {method other : Method}
    (member : method ∈ h.declared c) (member' : other ∈ h.declared c)
    (matching : method.Matches other) : method = other := by
  by_contra different
  have symmetric : Std.Symm fun method other : Method => ¬ method.Matches other :=
    ⟨fun _ _ apart matching => apart matching.symm⟩
  exact (h.classes c).distinct.forall member member' different matching

theorem distinct_methods {c : Nat} {method other : Method}
    (member : method ∈ h.methods c) (member' : other ∈ h.methods c)
    (matching : method.Matches other) : method = other :=
  h.distinct_declared (h.declared_of_mem member) (h.declared_of_mem member') matching

theorem nodup_methods (c : Nat) : (h.methods c).Nodup := by
  rw [methods_eq_take]
  refine ((h.classes c).distinct.sublist (List.take_sublist _ _)).imp ?_
  intro method other apart same
  exact apart ⟨congrArg Method.name same, congrArg Method.signature same⟩

theorem findMethodLocal_eq_some {c : Nat} {name signature : String} {found : Method}
    (result : h.findMethodLocal c name signature = some found) :
    found ∈ h.methods c ∧ found.name = name ∧ found.signature = signature := by
  have matching := List.find?_some result
  exact ⟨List.mem_of_find?_eq_some result, by simpa using matching⟩

theorem findMethodLocal_eq_none {c : Nat} {name signature : String}
    (result : h.findMethodLocal c name signature = none) {method : Method}
    (member : method ∈ h.methods c) :
    ¬(method.name = name ∧ method.signature = signature) := by
  have apart := List.find?_eq_none.mp result method member
  simpa using apart

theorem findMethodLocal_of_mem {c : Nat} {method : Method}
    (member : method ∈ h.methods c) :
    h.findMethodLocal c method.name method.signature = some method := by
  cases result : h.findMethodLocal c method.name method.signature with
  | none => exact absurd ⟨rfl, rfl⟩ (h.findMethodLocal_eq_none result member)
  | some found =>
      obtain ⟨inClass, sameName, sameSignature⟩ := h.findMethodLocal_eq_some result
      rw [h.distinct_methods inClass member ⟨sameName, sameSignature⟩]

theorem findAmong_eq_some {classes : List Nat} {name signature : String} {found : Method}
    (result : h.findAmong classes name signature = some found) :
    found.owner ∈ classes ∧ found ∈ h.methods found.owner ∧ found.name = name ∧
      found.signature = signature := by
  obtain ⟨c, inClasses, here⟩ := List.exists_of_findSome?_eq_some result
  obtain ⟨member, sameName, sameSignature⟩ := h.findMethodLocal_eq_some here
  have owner := h.owner_eq c found member
  rw [owner]
  exact ⟨inClasses, member, sameName, sameSignature⟩

theorem findAmong_eq_none {classes : List Nat} {name signature : String}
    (result : h.findAmong classes name signature = none) {c : Nat} (inClasses : c ∈ classes)
    {method : Method} (member : method ∈ h.methods c) :
    ¬(method.name = name ∧ method.signature = signature) :=
  h.findMethodLocal_eq_none (List.findSome?_eq_none_iff.mp result c inClasses) member

theorem findMethod_of_mem {c : Nat} {method : Method} (member : method ∈ h.methods c) :
    h.findMethod c method.name method.signature = some method := by
  rw [findMethod, findAmong, ancestry_eq, List.findSome?_cons, h.findMethodLocal_of_mem member]

theorem findMethod_of_not_mem {c : Nat} {name signature : String}
    (absent : ∀ method ∈ h.methods c, ¬(method.name = name ∧ method.signature = signature)) :
    h.findMethod c name signature = h.findAmong (h.superclasses c) name signature := by
  have here : h.findMethodLocal c name signature = none := by
    cases result : h.findMethodLocal c name signature with
    | none => rfl
    | some found =>
        obtain ⟨member, same⟩ := h.findMethodLocal_eq_some result
        exact absurd same (absent found member)
  rw [findMethod, findAmong, ancestry_eq, List.findSome?_cons, here]
  rfl

end Hierarchy

end LaTTe.Classes
