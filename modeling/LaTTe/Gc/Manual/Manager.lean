import LaTTe.Gc.Header

namespace LaTTe.Gc.Manual

open LaTTe.Data

/-! The manual memory manager.  Machine words have 32 bits; pointers and lump
sizes stay inside a region, so only the arithmetic on a size that comes from a
caller is reduced. -/

def wordSize : Nat := 2 ^ 32

def sizeClassSentinel : Nat := wordSize - 1

def sizeClassMaxSmallSize : Nat := 1024

def sizeClassMaxExponent : Nat := 16

def sizeClasses : Nat :=
  sizeClassMaxSmallSize / (2 * memAlign) + sizeClassMaxExponent + 1

/-- `NEXT(p)`. -/
def next (memory : Memory) (p : Nat) : Nat :=
  memory p

/-- `PREV(p)`. -/
def prev (memory : Memory) (p : Nat) : Nat :=
  memory (p + 4)

/-- `NEXT_LUMP(p)`. -/
def nextLump (memory : Memory) (p : Nat) : Nat :=
  p + size memory p

/-- `PREV_LUMP(p)`. -/
def prevLump (memory : Memory) (p : Nat) : Nat :=
  p - memory (p - 8)

/-- `FOOTER(p, size)`: the address of the footer. -/
def footer (p size : Nat) : Nat :=
  p + size - 2 * gcHead

/-- `*HEADER(p) & PREV_BIT`. -/
def prevInUse (memory : Memory) (p : Nat) : Bool :=
  hasFlag (memory (header p)) .prev

/-- `struct gc_heap`, with the memory it manages. -/
structure GcHeap where
  memory : Memory
  lists : Nat → Nat
  size : Nat
  alloc : Nat

def GcHeap.setMemory (heap : GcHeap) (address value : Nat) : GcHeap :=
  { heap with memory := heap.memory.store address value }

@[simp] theorem GcHeap.setMemory_memory (heap : GcHeap) (address value : Nat) :
    (heap.setMemory address value).memory = heap.memory.store address value :=
  rfl

def GcHeap.setList (heap : GcHeap) (cls p : Nat) : GcHeap :=
  { heap with lists := fun other => if other = cls then p else heap.lists other }

/-- The halving loop of `size_class`; a word is halved at most 32 times. -/
def halvings : Nat → Nat → Nat
  | 0, _ => 0
  | fuel + 1, size =>
      if sizeClassMaxSmallSize < size then halvings fuel (size / 2) + 1 else 0

def sizeClass (size : Nat) : Nat :=
  if size ≤ sizeClassMaxSmallSize then
    size / (2 * memAlign)
  else if sizeClassMaxSmallSize * 2 ^ sizeClassMaxExponent < size then
    sizeClasses - 1
  else
    sizeClassMaxSmallSize / (2 * memAlign) + halvings 32 size

def seek (memory : Memory) (wanted : Nat) : Nat → Nat → Nat → Option (Nat × Nat)
  | 0, _, _ => none
  | fuel + 1, before, node =>
      if node ≠ 0 ∧ size memory node < wanted then
        seek memory wanted fuel node (next memory node)
      else
        some (before, node)

def nonemptyClass (heap : GcHeap) : Nat → Nat → Option Nat
  | 0, _ => none
  | fuel + 1, cls =>
      if heap.lists cls = 0 then nonemptyClass heap fuel (cls + 1) else some cls

def findFreelump (heap : GcHeap) (size cls : Nat) : Option Nat := do
  let (_, p) ← seek heap.memory size wordSize 0 (heap.lists cls)
  if p ≠ 0 then
    some p
  else
    let cls ← nonemptyClass heap (sizeClasses + 1) (cls + 1)
    if cls < sizeClasses then
      some (heap.lists cls)
    else
      some 0

def insertFreelump (heap : GcHeap) (lump cls : Nat) : Option GcHeap := do
  let (before, node) ← seek heap.memory (size heap.memory lump) wordSize 0
    (heap.lists cls)
  let heap := heap.setMemory (lump + 4) before
  let heap := heap.setMemory lump node
  let heap :=
    if before = 0 then heap.setList cls lump else heap.setMemory before lump
  some (if node ≠ 0 then heap.setMemory (node + 4) lump else heap)

def removeFreelump (heap : GcHeap) (lump cls : Nat) : GcHeap :=
  let heap :=
    if prev heap.memory lump = 0 then
      heap.setList cls (next heap.memory lump)
    else
      heap.setMemory (prev heap.memory lump) (next heap.memory lump)
  if next heap.memory lump ≠ 0 then
    heap.setMemory (next heap.memory lump + 4) (prev heap.memory lump)
  else
    heap

def memsetZero (memory : Memory) (p bytes : Nat) : Memory :=
  fun address =>
    if p ≤ address ∧ address < p + bytes then 0 else memory address

/-- `memcpy(t, p, bytes)` between lumps.  Of the last word only the leading
bytes may be copied. -/
def memcpy (memory : Memory) (t p bytes : Nat) : Memory :=
  fun address =>
    if t ≤ address ∧ address + 4 ≤ t + bytes then
      memory (address - t + p)
    else if t ≤ address ∧ address < t + bytes then
      let kept := 256 ^ (4 - bytes % 4)
      memory (address - t + p) / kept * kept + memory address % kept
    else
      memory address

def memInit (memory : Memory) : GcHeap where
  memory := memory
  lists := fun cls => if cls = sizeClasses then sizeClassSentinel else 0
  size := 0
  alloc := 0

/-- The size `mem_allocate` looks for: padding, header and rounding. -/
def roundedSize (size : Nat) : Nat :=
  let padded := (size + memAlign) % wordSize
  let sum := (padded + gcHead + (2 * memAlign - 1)) % wordSize
  sum / (2 * memAlign) * (2 * memAlign)

def splitLump (heap : GcHeap) (p rounded : Nat) : Option GcHeap :=
  if rounded < size heap.memory p then do
    let t := p + rounded
    let s := size heap.memory p - rounded
    let heap := heap.setMemory (footer t s) s
    let heap := heap.setMemory (header t) s
    let heap ← insertFreelump heap t (sizeClass s)
    some (heap.setMemory (header p)
      (rounded ||| flagBits (heap.memory (header p))))
  else
    some heap

/-- `*HEADER(NEXT_LUMP(p)) |= PREV_BIT`. -/
def markUsed (heap : GcHeap) (p : Nat) : GcHeap :=
  let after := header (nextLump heap.memory p)
  heap.setMemory after (setFlag (heap.memory after) .prev)

/-- `*HEADER(NEXT_LUMP(p)) &= ~PREV_BIT`. -/
def markUnused (heap : GcHeap) (p : Nat) : GcHeap :=
  let after := header (nextLump heap.memory p)
  heap.setMemory after (clearFlag (heap.memory after) .prev)

def memAllocate (heap : GcHeap) (request : Nat) : Option (GcHeap × Nat) := do
  let rounded := roundedSize request
  let p ← findFreelump heap rounded (sizeClass rounded)
  if p ≠ 0 then
    let heap := removeFreelump heap p (sizeClass (size heap.memory p))
    let heap ← splitLump heap p rounded
    let heap := markUsed heap p
    let heap := { heap with
      memory := memsetZero heap.memory p ((rounded + wordSize - gcHead) % wordSize)
      alloc := (heap.alloc + rounded) % wordSize }
    some (heap, p)
  else
    some (heap, 0)

def coalescePrev (heap : GcHeap) (p : Nat) : GcHeap × Nat :=
  if prevInUse heap.memory p then
    (heap, p)
  else
    let before := prevLump heap.memory p
    let heap := removeFreelump heap before (sizeClass (size heap.memory before))
    let merged := size heap.memory before + size heap.memory p
    (heap.setMemory (header before)
      (merged ||| flagBits (heap.memory (header before))), before)

def coalesceNext (heap : GcHeap) (p : Nat) : GcHeap :=
  if prevInUse heap.memory (nextLump heap.memory (nextLump heap.memory p)) then
    heap
  else
    let after := nextLump heap.memory p
    let heap := removeFreelump heap after (sizeClass (size heap.memory after))
    let merged := size heap.memory p + size heap.memory after
    heap.setMemory (header p) (merged ||| flagBits (heap.memory (header p)))

def returnLump (heap : GcHeap) (p : Nat) : Option GcHeap :=
  let heap := heap.setMemory (footer p (size heap.memory p)) (size heap.memory p)
  let heap := markUnused heap p
  insertFreelump heap p (sizeClass (size heap.memory p))

def memFree (heap : GcHeap) (p : Nat) : Option GcHeap :=
  if p = 0 then
    some heap
  else
    let (heap, p) := coalescePrev heap p
    returnLump (coalesceNext heap p) p

def memResize (heap : GcHeap) (p request : Nat) : Option (GcHeap × Nat) :=
  if p = 0 then
    memAllocate heap request
  else do
    let (heap, t) ← memAllocate heap request
    if t = 0 then
      some (heap, 0)
    else
      let payload := size heap.memory p - gcHead
      let bytes := if payload < request then payload else request
      let heap := { heap with memory := memcpy heap.memory t p bytes }
      let heap ← memFree heap p
      some ({ heap with alloc := (heap.alloc + request) % wordSize }, t)

/-- `ROUNDUPREGIONSIZE(size + 6*MEMALIGN)`. -/
def regionSize (request : Nat) : Nat :=
  let sum := (request + 6 * memAlign) % wordSize
  (sum + (gcRegionSize - 1)) % wordSize / gcRegionSize * gcRegionSize

/-- `start` is the region `region_allocate` returned, if there is one. -/
def memExpand (heap : GcHeap) (request : Nat) (start : Option Nat) :
    Option (GcHeap × Int) :=
  match start with
  | none => some (heap, -1)
  | some start => do
      let rsize := regionSize request
      let bytes := (rsize + wordSize - 6 * memAlign) % wordSize
      let p := start + 2 * memAlign
      let heap := heap.setMemory (header p) (setFlag bytes .prev)
      let heap := heap.setMemory (footer p bytes) bytes
      let heap ← insertFreelump heap p (sizeClass bytes)
      let p := nextLump heap.memory p
      let heap := heap.setMemory (header p) memAlign
      let heap := heap.setMemory (header (nextLump heap.memory p)) (Flag.prev.bit)
      some ({ heap with size := (heap.size + rsize) % wordSize }, 0)

end LaTTe.Gc.Manual
