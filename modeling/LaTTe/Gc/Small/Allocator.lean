import LaTTe.Data.Loop
import LaTTe.Gc.Small.Normal

namespace LaTTe.Gc

open LaTTe.Data

/-! Allocation in the small object area.  The statistics are left out; what the
code decides by them is an argument. -/

def gcMaxSmallObjectSize : Nat := 1024

structure Small where
  memory : Memory
  regions : List SmallRegion
  cursor : Nat
  bound : Nat
  chunks : Nat
  blocks : Nat

namespace Small

def closeCursor (area : Small) : Small :=
  if area.cursor < area.bound then
    { area with
      memory := area.memory.store area.cursor
        (setFlag (area.bound - area.cursor) .free) }
  else
    area

def getSmallBlock (area : Small) : Nat × Small :=
  let block := area.blocks
  if area.memory block = gcBlockSize then
    (block, { area with blocks := link area.memory block })
  else
    let next := block + gcBlockSize
    let memory := area.memory.store next (area.memory block - gcBlockSize)
    (block, { area with
      blocks := next
      memory := memory.store (next + 4) (link memory block) })

def getSmallChunk (area : Small) (size : Nat) : Option (Nat × Small) :=
  if area.chunks ≠ 0 ∧ size ≤ clearFlag (area.memory area.chunks) .free then
    let chunkSize := clearFlag (area.memory area.chunks) .free
    let cursor := area.chunks
    some (cursor, { area with
      chunks := link area.memory area.chunks
      cursor := cursor + size
      bound := cursor + chunkSize })
  else if area.blocks ≠ 0 then
    let (block, area) := area.getSmallBlock
    let cursor := firstHeader block
    some (cursor, { area with cursor := cursor + size, bound := blockBound block })
  else
    none

theorem getSmallChunk_some {area : Small} (found : area.blocks ≠ 0) (size : Nat) :
    ∃ taken, area.getSmallChunk size = some taken := by
  unfold getSmallChunk
  rw [if_pos found]
  split
  · exact ⟨_, rfl⟩
  · exact ⟨_, rfl⟩

def insertRegion (regions : List SmallRegion) (region : SmallRegion) : List SmallRegion :=
  let behind := fun node : SmallRegion => !(node.start < region.start)
  (regions.reverse.dropWhile behind).reverse ++
    region :: (regions.reverse.takeWhile behind).reverse

inductive Grant where
  | refused
  | noTable
  | region (start : Nat) (table : Nat → BitVec 32)

/-- `none` if an exception is thrown. -/
def expandSmallArea (area : Small) : Grant → Option Small
  | .refused => some area
  | .noTable => none
  | .region start table =>
      let region : SmallRegion := ⟨start, start + gcRegionSize, table⟩
      some { area with
        regions := insertRegion area.regions region
        blocks := start
        memory := (area.memory.store start gcRegionSize).store (start + 4) 0 }

inductive Outcome where
  | allocated (p : Nat) (area : Small)
  | outOfMemory (area : Small)
  | collecting (area : Small)

def zero (memory : Memory) (tmp size : Nat) : Memory :=
  fun address => if tmp ≤ address ∧ address < tmp + size then 0 else memory address

/-- The end of `gc_malloc_small`: clear the memory and set the object header. -/
def finish (area : Small) (tmp size : Nat) : Outcome :=
  .allocated (tmp + gcHead)
    { area with memory := (zero area.memory tmp size).store tmp size }

def expandAndAllocate (area : Small) (size : Nat) (grant : Grant) : Outcome :=
  match area.expandSmallArea grant with
  | none => .outOfMemory area
  | some area =>
      match area.getSmallChunk size with
      | none => .outOfMemory area
      | some (tmp, area) => area.finish tmp size

/-- `slow_small_allocate` up to `gc_invoke`; `room` tells whether the heap may grow. -/
def slowSmallAllocate (area : Small) (size : Nat) (room : Bool) (grant : Grant) : Outcome :=
  let area := area.closeCursor
  match area.getSmallChunk size with
  | some (tmp, area) => area.finish tmp size
  | none =>
      if room then area.expandAndAllocate size grant
      else .collecting { area with cursor := 0, bound := 0 }

/-- `slow_small_allocate` behind `gc_invoke`. -/
def resumeSmallAllocate (area : Small) (size : Nat) (grant : Grant) : Outcome :=
  let area := area.closeCursor
  match area.getSmallChunk size with
  | some (tmp, area) => area.finish tmp size
  | none => area.expandAndAllocate size grant

def gcMallocSmall (area : Small) (size : Nat) (room : Bool) (grant : Grant) : Outcome :=
  if area.bound < area.cursor + size then
    area.slowSmallAllocate size room grant
  else
    { area with cursor := area.cursor + size }.finish area.cursor size

end Small

namespace SmallRegion

def fillTable (region : SmallRegion) : SmallRegion :=
  { region with
    table := fun index =>
      if index < gcRegionSize / (gcBlockSize * 8) / 4 then BitVec.allOnes 32
      else region.table index }

def clearBlock (region : SmallRegion) (pos : Nat) : SmallRegion :=
  { region with
    table := setEntry region.table (pos / 32)
      (region.table (pos / 32) &&& ~~~(1#32 <<< (pos % 32))) }

def clearGroup (region : SmallRegion) (block size : Nat) : SmallRegion :=
  ((List.range ((size + (gcBlockSize - 1)) / gcBlockSize)).map (· * gcBlockSize)).foldl
    (fun region i => region.clearBlock (region.blockPos (block + i))) region

/-- Mark the blocks of a region that are not free; `block` is the first group that may
lie in it. -/
def setTable (memory : Memory) (region : SmallRegion) (block : Nat) :
    Option (SmallRegion × Nat) :=
  whileLoop
    (fun state => decide (state.1.start ≤ state.2 ∧ state.2 < state.1.stop))
    (fun state => some (state.1.clearGroup state.2 (memory state.2), link memory state.2))
    (gcRegionSize / gcBlockSize) (region.fillTable, block)

end SmallRegion

namespace Small

def setTables (memory : Memory) : List SmallRegion → Nat → Option (List SmallRegion)
  | [], _ => some []
  | region :: rest, block => do
      let (region, block) ← region.setTable memory block
      let rest ← setTables memory rest block
      some (region :: rest)

def prepareGcSmall (area : Small) : Option Small := do
  let area := area.closeCursor
  let regions ← setTables area.memory area.regions area.blocks
  some { area with cursor := 0, bound := 0, regions := regions }

/-- The mark bits are set at the headers in `marked`. -/
def markHeaders (memory : Memory) (marked : List Nat) : Memory :=
  fun address =>
    if address ∈ marked then setFlag (memory address) .mark else memory address

inductive Sweeping where
  | normal
  | selective (objects : List Nat)

def sweepSmall (area : Small) : Sweeping → Option Swept
  | .normal => sweepSmallNormal area.regions area.memory
  | .selective objects => sweepSmallSelective area.regions objects area.memory

def collect (area : Small) (marked : List Nat) (sweeping : Sweeping) : Option Small := do
  let area ← area.prepareGcSmall
  let area := { area with memory := markHeaders area.memory marked }
  let swept ← area.sweepSmall sweeping
  some { area with memory := swept.memory, chunks := swept.chunks, blocks := swept.blocks }

end Small

end LaTTe.Gc
