import LaTTe.Gc.Manual.Manager
import LaTTe.Gc.Small.Allocator

namespace LaTTe.Gc

open LaTTe.Data

/-! The region manager and the three allocators that take their memory from it.  Each
allocator works in the memory of its own regions.  A step that has no defined behaviour
returns nothing. -/

inductive RegionType where
  | small
  | large
  | fixed
  deriving DecidableEq, Repr

/-- `struct gc_region`, as far as the region table is concerned. -/
structure TableRegion where
  start : Nat
  stop : Nat
  type : RegionType
  deriving DecidableEq, Repr

def TableRegion.bytes (region : TableRegion) : Nat :=
  region.stop - region.start

def gcRegionTableSize : Nat := 1024

def smallBlocksTableSize : Nat :=
  128 * (gcRegionSize / (gcBlockSize * 4 * 8))

inductive ManualHeap where
  | fixed
  | large
  deriving DecidableEq, Repr

def ManualHeap.type : ManualHeap → RegionType
  | .fixed => .fixed
  | .large => .large

/-- The memory manager.  `limit` is `gc_heap_limit`, `heapSize` is `heap_size`, and
`answers` is what `sbrk` is going to return. -/
structure Space where
  limit : Nat
  heapSize : Nat
  table : List TableRegion
  fixed : Manual.GcHeap
  large : Manual.GcHeap
  area : Small
  smallSize : Nat
  tablePos : Nat
  answers : List (Option Nat)

namespace Space

def heap (space : Space) : ManualHeap → Manual.GcHeap
  | .fixed => space.fixed
  | .large => space.large

def setHeap (space : Space) (kind : ManualHeap) (heap : Manual.GcHeap) : Space :=
  match kind with
  | .fixed => { space with fixed := heap }
  | .large => { space with large := heap }

/-- `MEMORYSIZE(gc_stats)`. -/
def memorySize (space : Space) : Nat :=
  (space.smallSize + space.large.size + space.fixed.size) % Manual.wordSize

def obtained (space : Space) : Nat :=
  (space.table.map TableRegion.bytes).sum

/-- The loop around `sbrk`: a region that is not aligned is given back up to the next
boundary and asked for again. -/
def askSystem : List (Option Nat) → Option (Option Nat × List (Option Nat))
  | [] => none
  | none :: answers => some (none, answers)
  | some region :: answers =>
      if region % gcBlockSize = 0 then some (some region, answers) else askSystem answers

def insertEntry (table : List TableRegion) (entry : TableRegion) : List TableRegion :=
  let above := fun node : TableRegion => decide (entry.start < node.start)
  (table.reverse.dropWhile above).reverse ++
    entry :: (table.reverse.takeWhile above).reverse

/-- The limit test of `region_allocate`, in unsigned words. -/
def overLimit (space : Space) (size : Nat) : Bool :=
  decide (space.limit < (size + space.memorySize) % Manual.wordSize)

/-- `region_allocate`.  The entries of the table come from a pool of that size. -/
def regionAllocate (space : Space) (size : Nat) (type : RegionType) :
    Option (Space × Option Nat) :=
  if space.overLimit size then
    some (space, none)
  else
    match askSystem space.answers with
    | none => none
    | some (none, answers) => some ({ space with answers := answers }, none)
    | some (some start, answers) =>
        if space.table.length < gcRegionTableSize then
          some ({ space with
            answers := answers
            table := insertEntry space.table ⟨start, start + size, type⟩ }, some start)
        else
          none

/-- `mem_expand`.  The second result is negative if the heap cannot be expanded. -/
def memExpand (space : Space) (kind : ManualHeap) (request : Nat) : Option (Space × Int) := do
  let (space, region) ← space.regionAllocate (Manual.regionSize request) kind.type
  let (heap, result) ← Manual.memExpand (space.heap kind) request region
  some (space.setHeap kind heap, result)

abbrev Allocator := Manual.GcHeap → Option (Manual.GcHeap × Nat)

def expandAndRetry (space : Space) (kind : ManualHeap) (request : Nat)
    (allocate : Allocator) : Option (Space × Nat) := do
  let (space, result) ← space.memExpand kind request
  if result < 0 then
    some (space, 0)
  else
    match allocate (space.heap kind) with
    | some (heap, p) => if p = 0 then none else some (space.setHeap kind heap, p)
    | none => none

/-- `*HEADER(p) |= MARK_BIT`. -/
def markFixed (space : Space) (p : Nat) : Space :=
  { space with
    fixed := space.fixed.setMemory (header p)
      (setFlag (space.fixed.memory (header p)) .mark) }

def takeFixed (space : Space) (request : Nat) (allocate : Allocator) :
    Option (Space × Nat) := do
  let (heap, p) ← allocate space.fixed
  if p = 0 then
    let (space, p) ← space.expandAndRetry .fixed request allocate
    some (if p = 0 then (space, p) else (space.markFixed p, p))
  else
    some ({ space with fixed := heap }.markFixed p, p)

def gcMallocFixed (space : Space) (size : Nat) : Option (Space × Nat) :=
  space.takeFixed size fun heap => Manual.memAllocate heap size

def gcReallocFixed (space : Space) (mem size : Nat) : Option (Space × Nat) :=
  space.takeFixed size fun heap => Manual.memResize heap mem size

def gcFree (space : Space) (p : Nat) : Option Space := do
  let heap ← Manual.memFree space.fixed p
  some { space with fixed := heap }

def smallGrant (space : Space) : Option (Space × Small.Grant) := do
  let (space, region) ← space.regionAllocate gcRegionSize .small
  match region with
  | none => some (space, .refused)
  | some start =>
      if smallBlocksTableSize ≤ space.tablePos then
        let (space, table) ← space.gcMallocFixed (smallBlocksTableSize * 4)
        some (if table = 0 then (space, .noTable)
          else ({ space with tablePos := gcRegionSize / (gcBlockSize * 8) },
            .region start fun _ => 0))
      else
        some ({ space with tablePos := space.tablePos + gcRegionSize / (gcBlockSize * 8) },
          .region start fun _ => 0)

/-- `expand_small_area`, with what has been granted to it. -/
def expandSmallArea (space : Space) : Option (Space × Small.Grant) := do
  let (space, grant) ← space.smallGrant
  match grant with
  | .region start table =>
      let area ← space.area.expandSmallArea (.region start table)
      some ({ space with
        area := area
        smallSize := (space.smallSize + gcRegionSize) % Manual.wordSize }, grant)
  | other => some (space, other)

inductive Result where
  | allocated (p : Nat)
  | outOfMemory
  | collecting
  deriving DecidableEq, Repr

def finishSmall (space : Space) (area : Small) (tmp size : Nat) : Space × Result :=
  match area.finish tmp size with
  | .allocated p area => ({ space with area := area }, .allocated p)
  | .outOfMemory area => ({ space with area := area }, .outOfMemory)
  | .collecting area => ({ space with area := area }, .collecting)

def takeSmall (space : Space) (size : Nat) : Option (Space × Result) :=
  (space.area.getSmallChunk size).map fun (tmp, area) => space.finishSmall area tmp size

/-- The last attempts of `slow_small_allocate`. -/
def expandAndAllocateSmall (space : Space) (size : Nat) : Option (Space × Result) := do
  let (space, grant) ← space.expandSmallArea
  match grant with
  | .noTable => some (space, .outOfMemory)
  | _ => some ((space.takeSmall size).getD (space, .outOfMemory))

/-- `HEAPSIZE(gc_stats)`. -/
def currentHeapSize (space : Space) : Nat :=
  (space.smallSize + space.large.size) % Manual.wordSize

/-- `HEAPSIZE(gc_stats) + GC_REGIONSIZE <= heap_size`. -/
def smallRoom (space : Space) : Bool :=
  decide ((space.currentHeapSize + gcRegionSize) % Manual.wordSize ≤ space.heapSize)

def closeSmall (space : Space) : Space :=
  { space with area := space.area.closeCursor }

/-- `slow_small_allocate` behind `gc_invoke`. -/
def resumeSmallAllocate (space : Space) (size : Nat) : Option (Space × Result) :=
  match space.closeSmall.takeSmall size with
  | some taken => some taken
  | none => space.closeSmall.expandAndAllocateSmall size

/-- `slow_small_allocate` up to `gc_invoke`. -/
def slowSmallAllocate (space : Space) (size : Nat) : Option (Space × Result) :=
  match space.closeSmall.takeSmall size with
  | some taken => some taken
  | none =>
      if space.smallRoom then
        space.closeSmall.expandAndAllocateSmall size
      else
        some ({ space.closeSmall with
          area := { space.closeSmall.area with cursor := 0, bound := 0 } }, .collecting)

def gcMallocSmall (space : Space) (size : Nat) : Option (Space × Result) :=
  if space.area.bound < space.area.cursor + size then
    space.slowSmallAllocate size
  else
    some (space.finishSmall { space.area with cursor := space.area.cursor + size }
      space.area.cursor size)

/-- `size + sizeof(struct large_set_node)`. -/
def largeSize (size : Nat) : Nat :=
  (size + 12) % Manual.wordSize

/-- `HEAPSIZE(gc_stats) + size < heap_size`. -/
def largeRoom (space : Space) (size : Nat) : Bool :=
  decide ((space.currentHeapSize + size) % Manual.wordSize < space.heapSize)

def largeResult (taken : Space × Nat) : Space × Result :=
  (taken.1, if taken.2 = 0 then .outOfMemory else .allocated taken.2)

/-- `gc_malloc_large` behind `gc_invoke`. -/
def resumeLargeAllocate (space : Space) (size : Nat) : Option (Space × Result) := do
  let (heap, p) ← Manual.memAllocate space.large (largeSize size)
  if p = 0 then
    let taken ← space.expandAndRetry .large (largeSize size)
      fun heap => Manual.memAllocate heap (largeSize size)
    some (largeResult taken)
  else
    some ({ space with large := heap }, .allocated p)

def gcMallocLarge (space : Space) (size : Nat) : Option (Space × Result) := do
  let (heap, p) ← Manual.memAllocate space.large (largeSize size)
  if p = 0 then
    if space.largeRoom size then
      let taken ← space.expandAndRetry .large (largeSize size)
        fun heap => Manual.memAllocate heap (largeSize size)
      some (largeResult taken)
    else
      some (space, .collecting)
  else
    some ({ space with large := heap }, .allocated p)

def roundUpRegionSize (size : Nat) : Nat :=
  (size + (gcRegionSize - 1)) % Manual.wordSize / gcRegionSize * gcRegionSize

/-- `expand_heap`.  `amount` is what more has been marked than allocated. -/
def expandHeap (space : Space) (amount : Int) : Space :=
  let target :=
    if 0 < amount then
      (roundUpRegionSize amount.toNat + space.heapSize) % Manual.wordSize
    else
      space.heapSize
  let limit := roundUpRegionSize space.limit
  { space with
    limit := limit
    heapSize :=
      if limit < (target + space.fixed.size) % Manual.wordSize then
        (limit + Manual.wordSize - space.fixed.size) % Manual.wordSize
      else
        target }

/-- A garbage collection.  `marked` are the marked headers of the small object area,
`dead` the large objects without a mark, and `lack` tells whether it was invoked because
of lack of space. -/
structure Collection where
  marked : List Nat
  sweeping : Small.Sweeping
  dead : List Nat
  lack : Bool
  amount : Int

def collect (space : Space) (collection : Collection) : Option Space := do
  let area ← space.area.collect collection.marked collection.sweeping
  let large ← collection.dead.foldlM Manual.memFree space.large
  let space := { space with area := area, large := large }
  some (if collection.lack then space.expandHeap collection.amount else space)

end Space

end LaTTe.Gc
