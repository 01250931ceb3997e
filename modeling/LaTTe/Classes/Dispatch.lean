import LaTTe.Classes.Hierarchy
import Mathlib.Algebra.Group.Int.Defs

namespace LaTTe.Classes

/-! Virtual tables.  The words of a virtual table are counted from `dtable`: the
methods start behind the class and the row of the inclusion test, and the slots of
the interface methods lie below the table. -/

/-- Native code of a method: the trampolines of a class lie behind its dispatch
table, and `throwNoSuchMethodError` is the code of a method that was not found. -/
inductive Code where
  | trampoline (owner slot : Nat)
  | throwNoSuchMethodError
  deriving DecidableEq, Repr

structure CallSite where
  addr : Nat
  info : BitVec 32
  deriving DecidableEq, Repr

/-- The call sites of a method.  The capacity is the length of `set`, whose entries
from `count` on are not used yet. -/
structure CallSiteSet where
  set : List CallSite
  count : Nat
  positive : 0 < set.length
  fits : count ≤ set.length

def CallSiteSet.sites (css : CallSiteSet) : List CallSite :=
  css.set.take css.count

def methodWord (index : Int) : Int :=
  index + 2

/-- The fields of methods and classes that preparing a class writes.  `tramps`
lists the methods for which the trampolines of a class have been filled in. -/
structure Vm where
  idx : Method → Int
  iidx : Method → Int
  ncode : Method → Option Code
  isOverridden : Method → Bool
  callSiteSet : Method → Option CallSiteSet
  msize : Nat → Int
  itSize : Nat → Int
  dtable : Nat → Int → Option Code
  methodsInDtable : Nat → Int → Option Method
  tramps : Nat → List Method
  totalInterface : Int
  text : Nat → BitVec 32

def Vm.initial (text : Nat → BitVec 32) : Vm where
  idx := fun _ => 0
  iidx := fun _ => -1
  ncode := fun _ => none
  isOverridden := fun _ => false
  callSiteSet := fun _ => none
  msize := fun _ => 0
  itSize := fun _ => 0
  dtable := fun _ _ => none
  methodsInDtable := fun _ _ => none
  tramps := fun _ => []
  totalInterface := 1
  text := text

namespace Vm

def setIdx (vm : Vm) (method : Method) (index : Int) : Vm :=
  { vm with idx := Function.update vm.idx method (toShort index) }

def setIidx (vm : Vm) (method : Method) (index : Int) : Vm :=
  { vm with iidx := Function.update vm.iidx method index }

def setMsize (vm : Vm) (c : Nat) (size : Int) : Vm :=
  { vm with msize := Function.update vm.msize c (toShort size) }

def setItSize (vm : Vm) (c : Nat) (size : Int) : Vm :=
  { vm with itSize := Function.update vm.itSize c size }

def setDtable (vm : Vm) (c : Nat) (word : Int) (code : Option Code) : Vm :=
  { vm with
    dtable := Function.update vm.dtable c (Function.update (vm.dtable c) word code) }

def setMethodsInDtable (vm : Vm) (c : Nat) (index : Int) (method : Option Method) : Vm :=
  { vm with
    methodsInDtable := Function.update vm.methodsInDtable c
      (Function.update (vm.methodsInDtable c) index method) }

/-- `FILL_IN_JIT_TRAMPOLINE` at `tramp` and `tramp++`; the method starts there. -/
def fillTrampoline (vm : Vm) (c : Nat) (method : Method) : Vm :=
  { vm with
    tramps := Function.update vm.tramps c (vm.tramps c ++ [method])
    ncode := Function.update vm.ncode method
      (some (.trampoline c (vm.tramps c).length)) }

@[simp] theorem setIdx_self (vm : Vm) (method : Method) (index : Int) :
    (vm.setIdx method index).idx method = toShort index :=
  Function.update_self _ _ _

theorem setIdx_other (vm : Vm) {method other : Method} (index : Int) (apart : other ≠ method) :
    (vm.setIdx method index).idx other = vm.idx other :=
  Function.update_of_ne apart _ _

@[simp] theorem setIdx_msize (vm : Vm) (method : Method) (index : Int) :
    (vm.setIdx method index).msize = vm.msize :=
  rfl

@[simp] theorem setMsize_self (vm : Vm) (c : Nat) (size : Int) :
    (vm.setMsize c size).msize c = toShort size :=
  Function.update_self _ _ _

theorem setMsize_other (vm : Vm) {c k : Nat} (size : Int) (apart : k ≠ c) :
    (vm.setMsize c size).msize k = vm.msize k :=
  Function.update_of_ne apart _ _

theorem fillTrampoline_tramps (vm : Vm) (c : Nat) (method : Method) :
    (vm.fillTrampoline c method).tramps c = vm.tramps c ++ [method] :=
  Function.update_self _ _ _

theorem fillTrampoline_tramps_other (vm : Vm) {c k : Nat} (method : Method) (apart : k ≠ c) :
    (vm.fillTrampoline c method).tramps k = vm.tramps k :=
  Function.update_of_ne apart _ _

theorem fillTrampoline_ncode (vm : Vm) (c : Nat) (method : Method) :
    (vm.fillTrampoline c method).ncode method =
      some (.trampoline c (vm.tramps c).length) :=
  Function.update_self _ _ _

theorem fillTrampoline_ncode_other (vm : Vm) (c : Nat) {method other : Method}
    (apart : other ≠ method) : (vm.fillTrampoline c method).ncode other = vm.ncode other :=
  Function.update_of_ne apart _ _

theorem setDtable_self (vm : Vm) (c : Nat) (word : Int) (code : Option Code) :
    (vm.setDtable c word code).dtable c word = code := by
  simp [setDtable]

theorem setDtable_word (vm : Vm) (c : Nat) {word other : Int} (code : Option Code)
    (apart : other ≠ word) : (vm.setDtable c word code).dtable c other = vm.dtable c other := by
  simp [setDtable, apart]

theorem setDtable_other (vm : Vm) {c k : Nat} (word : Int) (code : Option Code)
    (apart : k ≠ c) : (vm.setDtable c word code).dtable k = vm.dtable k :=
  Function.update_of_ne apart _ _

theorem setMethodsInDtable_self (vm : Vm) (c : Nat) (index : Int) (method : Option Method) :
    (vm.setMethodsInDtable c index method).methodsInDtable c index = method := by
  simp [setMethodsInDtable]

theorem setMethodsInDtable_index (vm : Vm) (c : Nat) {index other : Int}
    (method : Option Method) (apart : other ≠ index) :
    (vm.setMethodsInDtable c index method).methodsInDtable c other =
      vm.methodsInDtable c other := by
  simp [setMethodsInDtable, apart]

theorem setMethodsInDtable_other (vm : Vm) {c k : Nat} (index : Int) (method : Option Method)
    (apart : k ≠ c) :
    (vm.setMethodsInDtable c index method).methodsInDtable k = vm.methodsInDtable k :=
  Function.update_of_ne apart _ _

@[simp] theorem setMsize_idx (vm : Vm) (c : Nat) (size : Int) :
    (vm.setMsize c size).idx = vm.idx :=
  rfl

end Vm

/-! Call sites that were inlined speculatively are patched when the inlined method
is overridden. -/

def callOp : BitVec 32 := 0x40000000#32

def baOp : BitVec 32 := 0x10480000#32

def annulBit : BitVec 32 := 0x20000000#32

def assembleInstr1 (opcode disp30 : BitVec 32) : BitVec 32 :=
  opcode ||| (0x3fffffff#32 &&& disp30)

def assembleInstr3 (opcode disp19 : BitVec 32) : BitVec 32 :=
  opcode ||| (0x7ffff#32 &&& disp19)

def CallSite.patch (site : CallSite) : BitVec 32 :=
  let target := site.info >>> 2
  let mode := site.info &&& 3#32
  if mode = 0#32 then assembleInstr1 callOp target
  else assembleInstr3 baOp target ||| annulBit

def fixupCallSite (text : Nat → BitVec 32) (site : CallSite) : Nat → BitVec 32 :=
  Function.update text site.addr site.patch

def Vm.recorded (vm : Vm) (method : Method) : List CallSite :=
  match vm.callSiteSet method with
  | none => []
  | some css => css.sites

def fixupSpeculativeCallSite (vm : Vm) (method : Method) : Vm :=
  { vm with text := (vm.recorded method).foldl fixupCallSite vm.text }

def markOverridden (vm : Vm) (method : Method) : Vm :=
  fixupSpeculativeCallSite
    { vm with isOverridden := Function.update vm.isOverridden method true } method

@[simp] theorem markOverridden_idx (vm : Vm) (method : Method) :
    (markOverridden vm method).idx = vm.idx :=
  rfl

@[simp] theorem markOverridden_msize (vm : Vm) (method : Method) :
    (markOverridden vm method).msize = vm.msize :=
  rfl

/-! `buildDispatchTable`. -/

section

variable (h : Hierarchy)

/-- `if (class->ITsize < interface->ITsize) class->ITsize = interface->ITsize`. -/
def raiseItSize (c : Nat) (vm : Vm) (i : Nat) : Vm :=
  if vm.itSize c < vm.itSize i then vm.setItSize c (vm.itSize i) else vm

/-- `class->ITsize = total_interface; meth->iidx = total_interface++`. -/
def newInterfaceIndex (c : Nat) (vm : Vm) (method : Method) : Vm :=
  { (vm.setItSize c vm.totalInterface).setIidx method vm.totalInterface with
    totalInterface := vm.totalInterface + 1 }

/-- The methods of the superinterfaces that the search of an interface compares:
`for (k = nmethods; --k > 0; meth_tmp++)` leaves out the last one of each. -/
def comparedMethods (c : Nat) : List Method :=
  (h.interfaces c).flatMap fun i => (h.methods i).dropLast

def numberInterfaceMethod (c : Nat) (vm : Vm) (method : Method) : Vm :=
  match (comparedMethods h c).findRev? fun other => decide (method.Matches other) with
  | some other => vm.setIidx method (vm.iidx other)
  | none => newInterfaceIndex c vm method

/-- The part of `buildDispatchTable` for interfaces.  An interface without
superinterfaces has nothing to search. -/
def numberInterface (c : Nat) (vm : Vm) : Vm :=
  (h.methods c).foldl (numberInterfaceMethod h c)
    ((h.interfaces c).foldl (raiseItSize c) vm)

def inheritItSize (c : Nat) (vm : Vm) : Vm :=
  (h.interfaces c).foldl (raiseItSize c)
    (match h.superclass c with
      | none => vm
      | some super => vm.setItSize c (vm.itSize super))

def inheritMsize (c : Nat) (vm : Vm) : Vm :=
  match h.superclass c with
  | none => vm.setMsize c 0
  | some super => vm.setMsize c (vm.msize super)

def assignIndex (c : Nat) (vm : Vm) (method : Method) : Vm :=
  if method.isVirtual then
    match h.findAmong (h.superclasses c) method.name method.signature with
    | some overridden =>
        markOverridden (vm.setIdx method (vm.idx overridden)) overridden
    | none => (vm.setIdx method (vm.msize c)).setMsize c (vm.msize c + 1)
  else
    vm.setIdx method (-1)

def clearTables (c : Nat) (vm : Vm) : Vm :=
  { vm with
    dtable := Function.update vm.dtable c fun _ => none
    methodsInDtable := Function.update vm.methodsInDtable c fun _ => none
    tramps := Function.update vm.tramps c [] }

/-- With a negative `msize` the memory asked for is nearly 4 GB, or it ends before
the pointers to the tables. -/
def allocateTables (c : Nat) (vm : Vm) : Option Vm :=
  if vm.msize c < 0 then none else some (clearTables c vm)

theorem allocateTables_eq_some {c : Nat} {vm next : Vm} (run : allocateTables c vm = some next) :
    0 ≤ vm.msize c ∧ next = clearTables c vm := by
  unfold allocateTables at run
  split at run
  · contradiction
  · exact ⟨by omega, (Option.some.inj run).symm⟩

def inheritMethods (c : Nat) (vm : Vm) : Vm :=
  match h.superclass c with
  | none => vm
  | some super =>
      (List.range (vm.msize super).toNat).foldl
        (fun vm (index : Nat) =>
          vm.setMethodsInDtable c index (vm.methodsInDtable super index)) vm

def installMethod (c : Nat) (vm : Vm) (method : Method) : Vm :=
  if 0 ≤ vm.idx method then vm.setMethodsInDtable c (vm.idx method) (some method)
  else vm.fillTrampoline c method

def fillSlot (c : Nat) (vm : Vm) (index : Nat) : Option Vm := do
  let method ← vm.methodsInDtable c index
  match vm.ncode method with
  | some code => some (vm.setDtable c (methodWord index) (some code))
  | none =>
      let vm := vm.fillTrampoline c method
      some (vm.setDtable c (methodWord index) (vm.ncode method))

def undefinedMethod (c : Nat) (vm : Vm) : Bool :=
  !(h.classes c).isAbstract &&
    (List.range (vm.msize c).toNat).any fun (index : Nat) =>
      (vm.dtable c (methodWord index)).isNone

/-- `none` stands for a null pointer that is followed, for memory that there is not
and for an exception. -/
def buildDispatchTable (vm : Vm) (c : Nat) : Option Vm :=
  if h.isInterface c then
    some (numberInterface h c vm)
  else do
    let vm := inheritMsize h c (inheritItSize h c vm)
    let vm := (h.methods c).foldl (assignIndex h c) vm
    let vm ← allocateTables c vm
    let vm := (h.methods c).foldl (installMethod c) (inheritMethods h c vm)
    let vm ← (List.range (vm.msize c).toNat).foldlM (fillSlot c) vm
    if undefinedMethod h c vm then none else some vm

/-! `buildInterfaceTable`. -/

def fillInterfaceSlot (base : Nat) (vm : Vm) (method : Method) : Vm :=
  if method.name = initName then
    vm
  else
    match h.findAmong (h.ancestry base) method.name method.signature with
    | none => vm
    | some found =>
        let vm := vm.setIidx found (vm.iidx method)
        let vm := vm.setDtable base (-vm.iidx found)
          (vm.dtable base (methodWord (vm.idx found)))
        vm.setMethodsInDtable base (-vm.iidx found)
          (vm.methodsInDtable base (vm.idx found))

/-- `_findmethod`.  Interfaces have smaller numbers than what extends them. -/
def findmethod (base : Nat) : Nat → Nat → Vm → Vm
  | 0, _, vm => vm
  | fuel + 1, c, vm =>
      (h.interfaces c).foldl
        (fun vm i =>
          let vm := (h.methods i).foldl (fillInterfaceSlot h base) vm
          if (h.interfaces i).isEmpty then vm else findmethod base fuel i vm)
        vm

def buildInterfaceTable (vm : Vm) (c : Nat) : Vm :=
  (h.ancestry c).foldl (fun vm super => findmethod h c super super vm) vm

/-- What `processClass` does to the tables when it prepares a class. -/
def prepare (vm : Vm) (c : Nat) : Option Vm := do
  let vm ← buildDispatchTable h vm c
  some (if h.isInterface c then vm else buildInterfaceTable h vm c)

/-- The first `count` classes, each after its superclass and its interfaces. -/
def prepareAll (text : Nat → BitVec 32) (count : Nat) : Option Vm :=
  (List.range count).foldlM (prepare h) (Vm.initial text)

end

end LaTTe.Classes
