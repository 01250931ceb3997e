import LaTTe.Gc.Regions.Space

namespace LaTTe.Gc

open LaTTe.Data Manual

/-! The set of large objects: a closed hash table whose nodes lie behind the objects. -/

def largeSetSize : Nat := 16381

def largeSetHash (p : Nat) : Nat :=
  p / memAlign

/-- The address of the node that `large_set_add` appends to an object. -/
def largeSetNode (p size : Nat) : Nat :=
  (p + size + 3) / 4 * 4

/-- The fields of `struct large_set_node`. -/
inductive NodeField where
  | object
  | prev
  | next
  deriving DecidableEq, Repr

def NodeField.offset : NodeField → Nat
  | .object => 0
  | .prev => 4
  | .next => 8

/-- The large object area.  `table` is the address of `large_objects`, whose words are in
`objects`; all other nodes are in the heap. -/
structure LargeArea where
  space : Space
  table : Nat
  objects : Memory

namespace LargeArea

def sentinel (area : LargeArea) (index : Nat) : Nat :=
  area.table + index * 12

def InTable (area : LargeArea) (address : Nat) : Prop :=
  area.table ≤ address ∧ address < area.table + largeSetSize * 12

instance (area : LargeArea) (address : Nat) : Decidable (area.InTable address) :=
  inferInstanceAs (Decidable (_ ∧ _))

def memory (area : LargeArea) : Memory :=
  area.space.large.memory

def load (area : LargeArea) (address : Nat) : Nat :=
  if area.InTable address then area.objects address else area.memory address

def store (area : LargeArea) (address value : Nat) : LargeArea :=
  if area.InTable address then
    { area with objects := area.objects.store address value }
  else
    { area with space := { area.space with
      large := area.space.large.setMemory address value } }

def get (area : LargeArea) (node : Nat) (field : NodeField) : Nat :=
  area.load (node + field.offset)

def set (area : LargeArea) (node : Nat) (field : NodeField) (value : Nat) : LargeArea :=
  area.store (node + field.offset) value

def object (area : LargeArea) (node : Nat) : Nat :=
  area.get node .object

def prev (area : LargeArea) (node : Nat) : Nat :=
  area.get node .prev

def next (area : LargeArea) (node : Nat) : Nat :=
  area.get node .next

def marked (area : LargeArea) (p : Nat) : Bool :=
  hasFlag (area.memory (header p)) .mark

def setHeader (area : LargeArea) (p value : Nat) : LargeArea :=
  { area with space := { area.space with
    large := area.space.large.setMemory (header p) value } }

def mark (area : LargeArea) (p : Nat) : LargeArea :=
  area.setHeader p (setFlag (area.memory (header p)) .mark)

def clearMark (area : LargeArea) (p : Nat) : LargeArea :=
  area.setHeader p (clearFlag (area.memory (header p)) .mark)

def chainIndex (p : Nat) : Nat :=
  largeSetHash p % largeSetSize

def setSentinel (area : LargeArea) (index : Nat) : LargeArea :=
  let node := area.sentinel index
  let area := area.set node .object 0
  let area := area.set node .next node
  area.set node .prev node

def largeSetInit (area : LargeArea) : LargeArea :=
  (List.range largeSetSize).foldl setSentinel area

/-- The loop of `large_set_exists`.  A chain has fewer nodes than there are addresses. -/
def searchChain (area : LargeArea) (p : Nat) : Nat → Nat → Option Bool
  | 0, _ => none
  | fuel + 1, node =>
      if area.object node = 0 then
        some false
      else if area.object node = p then
        some true
      else
        area.searchChain p fuel (area.next node)

def largeSetExists (area : LargeArea) (p : Nat) : Option Bool :=
  area.searchChain p wordSize (area.next (area.sentinel (chainIndex p)))

def largeSetAdd (area : LargeArea) (p size : Nat) : LargeArea :=
  let first := area.sentinel (chainIndex p)
  let node := largeSetNode p size
  let area := area.set node .object p
  let area := area.set node .prev first
  let area := area.set node .next (area.next first)
  let area := area.set (area.next first) .prev node
  area.set first .next node

/-- The end of `gc_malloc_large`. -/
def addAllocated (area : LargeArea) (size : Nat) (taken : Space × Space.Result) :
    LargeArea × Space.Result :=
  match taken with
  | (space, .allocated p) =>
      (({ area with space := space } : LargeArea).largeSetAdd p size, .allocated p)
  | (space, result) => ({ area with space := space }, result)

def gcMallocLarge (area : LargeArea) (size : Nat) : Option (LargeArea × Space.Result) :=
  (area.space.gcMallocLarge size).map (area.addAllocated size)

/-- `gc_malloc_large` behind `gc_invoke`. -/
def resumeLargeAllocate (area : LargeArea) (size : Nat) :
    Option (LargeArea × Space.Result) :=
  (area.space.resumeLargeAllocate size).map (area.addAllocated size)

def unlink (area : LargeArea) (node : Nat) : LargeArea :=
  let area := area.set (area.prev node) .next (area.next node)
  area.set (area.next node) .prev (area.prev node)

def free (area : LargeArea) (object : Nat) : Option LargeArea :=
  (memFree area.space.large object).map fun heap =>
    { area with space := { area.space with large := heap } }

/-- The inner loop of `sweep_large`, without its statistics.  The second result lists the
objects that it frees, and there is no result if an assertion fails. -/
def sweepChain (first : Nat) : Nat → LargeArea → Nat → Option (LargeArea × List Nat)
  | 0, _, _ => none
  | fuel + 1, area, node =>
      if area.object node = 0 then
        some (area, [])
      else if node = 0 ∨ node = first ∨ area.prev node = 0 ∨ area.next node = 0 then
        none
      else
        let next := area.next node
        let object := area.object node
        if area.marked object then
          sweepChain first fuel (area.clearMark object) next
        else do
          let area ← (area.unlink node).free object
          let (area, freed) ← sweepChain first fuel area next
          some (area, object :: freed)

def sweepChains : List Nat → LargeArea → Option (LargeArea × List Nat)
  | [], area => some (area, [])
  | index :: rest, area => do
      let first := area.sentinel index
      let (area, freed) ← sweepChain first wordSize area (area.next first)
      let (area, others) ← sweepChains rest area
      some (area, freed ++ others)

def sweepLarge (area : LargeArea) : Option (LargeArea × List Nat) :=
  sweepChains (List.range largeSetSize) area

section

variable {area : LargeArea} {address value x y : Nat}

theorem store_table (area : LargeArea) (address value : Nat) :
    (area.store address value).table = area.table := by
  unfold store
  split <;> rfl

@[simp] theorem set_table (area : LargeArea) (node : Nat) (field : NodeField) (value : Nat) :
    (area.set node field value).table = area.table :=
  store_table _ _ _

theorem store_spaceTable (area : LargeArea) (address value : Nat) :
    (area.store address value).space.table = area.space.table := by
  unfold store
  split <;> rfl

theorem store_inside (inside : area.InTable address) :
    area.store address value = { area with objects := area.objects.store address value } :=
  if_pos inside

theorem store_outside (outside : ¬area.InTable address) :
    area.store address value = { area with space := { area.space with
      large := area.space.large.setMemory address value } } :=
  if_neg outside

theorem load_store (area : LargeArea) (address value : Nat) :
    (area.store address value).load = Memory.store area.load address value := by
  funext other
  have inTable : (area.store address value).InTable other ↔ area.InTable other := by
    rw [InTable, store_table, InTable]
  rcases eq_or_ne other address with rfl | different
  · rw [Memory.store_same]
    by_cases inside : area.InTable other
    · rw [load, if_pos (inTable.mpr inside), store_inside inside]
      exact Memory.store_same _ _ _
    · rw [load, if_neg (mt inTable.mp inside), store_outside inside]
      exact Memory.store_same _ _ _
  · rw [Memory.store_other _ _ different, load, load]
    simp only [inTable]
    by_cases inside : area.InTable address
    · rw [store_inside inside]
      simp only [Memory.store_other _ _ different, memory]
    · rw [store_outside inside]
      simp only [GcHeap.setMemory_memory, Memory.store_other _ _ different, memory]

def Clear (x y : Nat) : Prop :=
  x = y ∨ x + 12 ≤ y ∨ y + 12 ≤ x

theorem get_set (clear : Clear x y) (field other : NodeField) :
    (area.set x field value).get y other =
      if y = x ∧ other = field then value else area.get y other := by
  unfold Clear at clear
  rw [get, set, load_store]
  by_cases same : y = x ∧ other = field
  · rw [if_pos same, same.1, same.2, Memory.store_same]
  · rw [if_neg same, get, Memory.store_other]
    cases field <;> cases other <;> simp only [NodeField.offset, reduceCtorEq, and_true,
      and_false, not_false_eq_true] at same ⊢ <;> omega

end

end LargeArea

end LaTTe.Gc
