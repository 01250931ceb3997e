import LaTTe.Data.BitRow
import LaTTe.Data.Transition
import Mathlib.Logic.Function.Basic

namespace LaTTe.Classes

open LaTTe.Data

/-! The inclusion test.  Each class that is linked gets a column of a matrix of bits, and a
row that tells which classes include it. -/

/-- What `lookupArray` notes in an array class. -/
structure ArrayType (Class : Type) where
  component : Class
  element : Class
  dimension : Nat
  deriving DecidableEq, Repr

structure ClassInfo (Class : Type) where
  superclass : Option Class
  interfaces : List Class
  isPrimitive : Bool
  arrayType : Option (ArrayType Class)
  hasTable : Bool
  deriving DecidableEq, Repr

section

variable {Class : Type}

def elementOf (info : Class → ClassInfo Class) (c : Class) : Class :=
  match (info c).arrayType with
  | some array => array.element
  | none => c

def dimensionOf (info : Class → ClassInfo Class) (c : Class) : Nat :=
  match (info c).arrayType with
  | some array => array.dimension
  | none => 0

end

/-- All classes there may be.  Circular ones are refused by `processClass`; an array class is
made by `lookupArray`, once for each component type. -/
structure Taxonomy (Class : Type) where
  info : Class → ClassInfo Class
  objectClass : Class
  depth : Class → Nat
  superclass_depth : ∀ c s, (info c).superclass = some s → depth s < depth c
  interface_depth : ∀ c, ∀ i ∈ (info c).interfaces, depth i < depth c
  component_depth : ∀ c array, (info c).arrayType = some array → depth array.component < depth c
  superclass_normal : ∀ c s, (info c).superclass = some s → (info s).arrayType = none
  interface_normal : ∀ c, ∀ i ∈ (info c).interfaces, (info i).arrayType = none
  array_top : ∀ c array, (info c).arrayType = some array →
    (info c).superclass = some objectClass ∧ (info c).interfaces = [] ∧
      (info c).isPrimitive = false
  array_shape : ∀ c array, (info c).arrayType = some array →
    array.element = elementOf info array.component ∧
      array.dimension = dimensionOf info array.component + 1
  array_unique : ∀ c array, (info c).arrayType = some array →
    ∀ d other, (info d).arrayType = some other → array.component = other.component → c = d
  object_top : (info objectClass).superclass = none ∧ (info objectClass).interfaces = [] ∧
    (info objectClass).isPrimitive = false ∧ (info objectClass).arrayType = none
  primitive_top : ∀ c, (info c).isPrimitive = true →
    (info c).superclass = none ∧ (info c).interfaces = []

structure TypeRep where
  pos : Nat
  row : Nat

/-- The variables of the inclusion test, with the fields of the classes that it writes and the
rows `gc_malloc_fixed` has given it. -/
structure InclusionTest (Class : Type) where
  columnIdx : Nat
  bitvecSize : Nat
  normalHead : List Class
  arrayHead : List Class
  typeRep : Class → TypeRep
  tableRow : Class → Nat
  encoding : Class → BitVec 32
  rows : Nat → BitRow
  unused : Nat

def initialBitvecSize : Nat := 5

def expandBitvecSize : Nat := 5

def makeEncoding (pos : Nat) : BitVec 32 :=
  BitVec.ofNat 32 (pos / 8) <<< 8 ||| 1#32 <<< (7 - pos % 8)

namespace InclusionTest

variable {Class : Type} [DecidableEq Class]

def initial (typeRep : Class → TypeRep) (tableRow : Class → Nat) (encoding : Class → BitVec 32) :
    InclusionTest Class where
  columnIdx := 0
  bitvecSize := initialBitvecSize
  normalHead := []
  arrayHead := []
  typeRep := typeRep
  tableRow := tableRow
  encoding := encoding
  rows := fun _ => []
  unused := 0

def row (test : InclusionTest Class) (c : Class) : BitRow :=
  test.rows (test.typeRep c).row

def bit (test : InclusionTest Class) (c d : Class) : Bool :=
  (test.row c).test (test.typeRep d).pos

def setRow (test : InclusionTest Class) (c : Class) (row : BitRow) : InclusionTest Class :=
  { test with rows := Function.update test.rows (test.typeRep c).row row }

def setBit (test : InclusionTest Class) (c d : Class) : InclusionTest Class :=
  test.setRow c ((test.row c).set (test.typeRep d).pos)

/-- `CIT_MALLOC` of a row for `c`, which its virtual table points to as well. -/
def allocateRow (test : InclusionTest Class) (info : Class → ClassInfo Class) (c : Class)
    (contents : BitRow) : InclusionTest Class :=
  { test with
    typeRep := Function.update test.typeRep c ⟨(test.typeRep c).pos, test.unused⟩
    tableRow :=
      if (info c).hasTable then Function.update test.tableRow c test.unused else test.tableRow
    rows := Function.update test.rows test.unused contents
    unused := test.unused + 1 }

def expandInClassList (info : Class → ClassInfo Class) (prevSize : Nat)
    (test : InclusionTest Class) (list : List Class) : InclusionTest Class :=
  list.foldl
    (fun test c =>
      test.allocateRow info c
        ((test.row c).take prevSize ++ List.replicate (test.bitvecSize - prevSize) 0))
    test

def expandBinaryMatrix (test : InclusionTest Class) (info : Class → ClassInfo Class) :
    InclusionTest Class :=
  let prevSize := test.bitvecSize
  let test := { test with bitvecSize := test.bitvecSize + expandBitvecSize }
  let test := expandInClassList info prevSize test test.normalHead
  expandInClassList info prevSize test test.arrayHead

def updateAgainst (test : InclusionTest Class) (types : Taxonomy Class) (c : Class)
    (array : ArrayType Class) (tmp : Class) : InclusionTest Class :=
  match (types.info tmp).arrayType with
  | none => test
  | some other =>
      if array.element = types.objectClass then
        if array.dimension ≤ other.dimension then test.setBit tmp c else test
      else if other.element = types.objectClass then
        if other.dimension ≤ array.dimension then test.setBit c tmp else test
      else if array.dimension = other.dimension then
        if (types.info array.element).isPrimitive || (types.info other.element).isPrimitive then
          test
        else if test.bit array.element other.element then
          test.setBit c tmp
        else if test.bit other.element array.element then
          test.setBit tmp c
        else
          test
      else
        test

def updateArray (test : InclusionTest Class) (types : Taxonomy Class) (c : Class)
    (array : ArrayType Class) : InclusionTest Class :=
  let test :=
    if (types.info array.component).isPrimitive then
      test
    else
      { test with
        encoding := Function.update test.encoding c
          (makeEncoding (test.typeRep array.component).pos) }
  let test := test.arrayHead.foldl (fun test tmp => test.updateAgainst types c array tmp) test
  { test with arrayHead := c :: test.arrayHead }

def updateNormal (test : InclusionTest Class) (info : Class → ClassInfo Class) (c : Class) :
    InclusionTest Class :=
  let test := (info c).interfaces.foldl
    (fun test interface => test.setRow c ((test.row c).or (test.row interface))) test
  { test with normalHead := c :: test.normalHead }

def enter (test : InclusionTest Class) (info : Class → ClassInfo Class) (c : Class) :
    InclusionTest Class :=
  let test := { test with
    typeRep := Function.update test.typeRep c ⟨test.columnIdx, (test.typeRep c).row⟩
    columnIdx := test.columnIdx + 1 }
  let test := test.allocateRow info c (List.replicate test.bitvecSize 0)
  let test :=
    match (info c).superclass with
    | some super => test.setRow c (test.row super)
    | none => test
  test.setBit c c

def updateClassHierarchy (test : InclusionTest Class) (types : Taxonomy Class) (c : Class) :
    InclusionTest Class :=
  let test :=
    if test.bitvecSize * 32 ≤ test.columnIdx then test.expandBinaryMatrix types.info else test
  let test := test.enter types.info c
  match (types.info c).arrayType with
  | some array => test.updateArray types c array
  | none => test.updateNormal types.info c

def isSubclass (test : InclusionTest Class) (c d : Class) : Bool :=
  test.bit c d

end InclusionTest

section

variable {Class : Type} [DecidableEq Class]

/-- `instanceof_class`: whether the class `oc` leads up to `c`. -/
def instanceofClass (types : Taxonomy Class) (c oc : Class) : Bool :=
  oc = c ||
    ((types.info oc).superclass.attach.any fun s => instanceofClass types c s.1) ||
    (types.info oc).interfaces.attach.any fun i => instanceofClass types c i.1
termination_by types.depth oc
decreasing_by
  · exact types.superclass_depth oc s.1 s.2
  · exact types.interface_depth oc i.1 i.2

def instanceofArray (types : Taxonomy Class) (c oc : Class) : Bool :=
  match _array : (types.info c).arrayType, (types.info oc).arrayType with
  | some component, some component' =>
      instanceofArray types component.component component'.component
  | some _, none => false
  | none, component =>
      if (types.info c).isPrimitive then c = oc
      else if component.isSome then c = types.objectClass
      else if (types.info oc).isPrimitive then false
      else instanceofClass types c oc
termination_by types.depth c
decreasing_by exact types.component_depth c component _array

def instanceof (types : Taxonomy Class) (c oc : Class) : Bool :=
  if (types.info c).arrayType.isSome then instanceofArray types c oc
  else instanceofClass types c oc

end

end LaTTe.Classes
