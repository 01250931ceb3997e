import LaTTe.Data.Counting
import LaTTe.Gc.Small.Area

namespace LaTTe.Gc

open LaTTe.Data

/-! Sweeping the small object area.  A chunk or a group of free blocks keeps its
size in its first word and a link in the next one.  The statistics are left
out. -/

def smallChunksListIndexSize : Nat := gcBlockSize / memAlign

/-- The free chunk list index and the free blocks list while they are built.
A tail that is `none` points to the dummy head of its list. -/
structure Sweeper where
  memory : Memory
  first : Nat → Nat
  tail : Nat → Option Nat
  blocks : Nat
  tailBlock : Option Nat

/-- `init_freeindex` and the initialization of the dummy block. -/
def initFreeindex (memory : Memory) : Sweeper where
  memory := memory
  first := fun _ => 0
  tail := fun _ => none
  blocks := 0
  tailBlock := none

def insertFreechunk (sweeper : Sweeper) (chunk size : Nat) : Sweeper :=
  let index := size / memAlign
  let sweeper :=
    match sweeper.tail index with
    | none => { sweeper with first := setEntry sweeper.first index chunk }
    | some node => { sweeper with memory := sweeper.memory.store (node + 4) chunk }
  { sweeper with
    tail := setEntry sweeper.tail index (some chunk)
    memory := sweeper.memory.store chunk (setFlag size .free) }

def insertFreeblock (sweeper : Sweeper) (block size : Nat) : Sweeper :=
  let memory := (sweeper.memory.store block size).store (block + 4) 0
  match sweeper.tailBlock with
  | none =>
      { sweeper with memory := memory, blocks := block, tailBlock := some block }
  | some node =>
      { sweeper with memory := memory.store (node + 4) block, tailBlock := some block }

def linkTail (state : Memory × Nat) (tail : Option Nat) (node : Nat) : Memory × Nat :=
  match tail with
  | none => (state.1, node)
  | some last => (state.1.store (last + 4) node, state.2)

/-- `for (i = SMALL_CHUNKS_LIST_INDEX_SIZE-1; i > 0; i--)`. -/
def indexOrder : List Nat :=
  (List.range (smallChunksListIndexSize - 1)).reverse.map (· + 1)

def mergeFreeindex (sweeper : Sweeper) : Memory × Nat :=
  let merged := indexOrder.foldl
    (fun state index =>
      if sweeper.first index ≠ 0 then
        (linkTail state.1 state.2 (sweeper.first index), sweeper.tail index)
      else
        state)
    ((sweeper.memory, 0), none)
  linkTail merged.1 merged.2 0

def roundDownBlockSize (p : Nat) : Nat :=
  p / gcBlockSize * gcBlockSize

def roundUpBlockSize (p : Nat) : Nat :=
  (p + (gcBlockSize - 1)) / gcBlockSize * gcBlockSize

def toBoundary (p : Nat) : Nat :=
  if p % gcBlockSize = memAlign - gcHead then
    p - (memAlign - gcHead)
  else if p % gcBlockSize = gcBlockSize - gcHead then
    p + gcHead
  else
    p

def firstPart (start stop : Nat) : Nat × Nat :=
  if start % gcBlockSize ≠ 0 then
    (start, if stop < roundUpBlockSize start then stop
      else roundUpBlockSize start - gcHead)
  else
    (0, 0)

def middlePart (start stop : Nat) : Nat × Nat :=
  let cursor := if start % gcBlockSize ≠ 0 then roundUpBlockSize start else start
  if cursor < roundDownBlockSize stop then (cursor, roundDownBlockSize stop) else (0, 0)

def lastPart (start stop : Nat) : Nat × Nat :=
  let cursor := if start % gcBlockSize ≠ 0 then roundUpBlockSize start else start
  let cursor := if cursor < roundDownBlockSize stop then roundDownBlockSize stop
    else cursor
  if cursor < stop then (cursor + gcHead, stop) else (0, 0)

def freeChunkPart (sweeper : Sweeper) (part : Nat × Nat) : Sweeper :=
  if part.1 < part.2 then insertFreechunk sweeper part.1 (part.2 - part.1)
  else sweeper

def freeBlockPart (sweeper : Sweeper) (part : Nat × Nat) : Sweeper :=
  if part.1 < part.2 then insertFreeblock sweeper part.1 (part.2 - part.1)
  else sweeper

def insertFreemem (sweeper : Sweeper) (start stop : Nat) : Sweeper :=
  let start := toBoundary start
  let stop := toBoundary stop
  if start = stop then
    sweeper
  else
    let sweeper := freeChunkPart sweeper (firstPart start stop)
    let sweeper := freeBlockPart sweeper (middlePart start stop)
    freeChunkPart sweeper (lastPart start stop)

def unmark (sweeper : Sweeper) (head : Nat) : Sweeper :=
  { sweeper with
    memory := sweeper.memory.store head (clearFlag (sweeper.memory head) .mark) }

/-! Selective sweeping. -/

def radixSize : Nat := 2048

def radixBits : Nat := 11

/-- `((uintp)p >> shift) & RADIX_MASK`. -/
def radix (shift p : Nat) : Nat :=
  p / 2 ^ shift % radixSize

theorem radix_lt (shift p : Nat) : radix shift p < radixSize :=
  Nat.mod_lt _ (by decide)

def sortObjects (objects : List Nat) : List Nat :=
  [0, radixBits, 2 * radixBits].foldl
    (fun set shift => countingPass radixSize (radix shift) set (fun _ => 0)) objects

def sweepObjects (stop : Nat) :
    Nat → List Nat → Sweeper → Option (Nat × List Nat × Sweeper)
  | _, [], _ => none
  | object, following :: rest, sweeper =>
      if following < stop then
        let sweeper := unmark sweeper (header following)
        let objectEnd := header object + size sweeper.memory object
        let objectStart := header following
        let sweeper :=
          if objectEnd < objectStart then insertFreemem sweeper objectEnd objectStart
          else sweeper
        sweepObjects stop following rest sweeper
      else
        some (object, following :: rest, sweeper)

/-- One round over the regions: the objects from `objects[i]` on and the lists. -/
def sweepRegionSelective (region : SmallRegion) (objects : List Nat)
    (sweeper : Sweeper) : Option (List Nat × Sweeper) :=
  match objects.dropWhile (· < region.start) with
  | [] => none
  | object :: rest =>
      if region.stop < object then
        some (object :: rest,
          insertFreeblock sweeper region.start (region.stop - region.start))
      else do
        let regionFirst := region.start + (memAlign - gcHead)
        let regionLast := region.stop - gcHead
        let sweeper := unmark sweeper (header object)
        let sweeper :=
          if regionFirst < header object then
            insertFreemem sweeper regionFirst (header object)
          else
            sweeper
        let (object, rest, sweeper) ← sweepObjects region.stop object rest sweeper
        let objectEnd := header object + size sweeper.memory object
        let sweeper :=
          if objectEnd < regionLast then insertFreemem sweeper objectEnd regionLast
          else sweeper
        some (object :: rest, sweeper)

structure Swept where
  memory : Memory
  chunks : Nat
  blocks : Nat

def sweepSmallSelective (regions : List SmallRegion) (objects : List Nat)
    (memory : Memory) : Option Swept := do
  let objects := sortObjects (objects ++ [0, 2 ^ 32 - 1])
  let (_, sweeper) ← regions.foldlM
    (fun state region => sweepRegionSelective region state.1 state.2)
    (objects, initFreeindex memory)
  let (memory, chunks) := mergeFreeindex sweeper
  some { memory := memory, chunks := chunks, blocks := sweeper.blocks }

/-! Traditional sweeping. -/

def sweepChunks (bound : Nat) :
    Nat → Nat → Nat → Nat → Sweeper → Option (Nat × Nat × Sweeper)
  | 0, _, _, _, _ => none
  | fuel + 1, head, slack, slackSize, sweeper =>
      if head < bound then
        let size := headerSize sweeper.memory head
        if hasFlag (sweeper.memory head) .mark then
          let sweeper :=
            if 0 < slackSize then insertFreechunk sweeper slack slackSize else sweeper
          sweepChunks bound fuel (head + size) (head + size) 0 (unmark sweeper head)
        else
          sweepChunks bound fuel (head + size) slack (slackSize + size) sweeper
      else
        some (slack, slackSize, sweeper)

structure BlockSlack where
  start : Nat
  size : Nat

def freeSlackBlock (sweeper : Sweeper) (slack : BlockSlack) : Sweeper :=
  if 0 < slack.size then insertFreeblock sweeper slack.start slack.size else sweeper

def sweepBlock (region : SmallRegion) (state : BlockSlack × Sweeper) (block : Nat) :
    Option (BlockSlack × Sweeper) :=
  let (blocks, sweeper) := state
  if region.blockUsed (region.blockPos block) then do
    let (slack, slackSize, sweeper) ←
      sweepChunks (blockBound block) gcBlockSize (firstHeader block)
        (firstHeader block) 0 sweeper
    if 0 < slackSize ∧ slack = firstHeader block then
      some ({ blocks with size := blocks.size + gcBlockSize }, sweeper)
    else
      let sweeper :=
        if 0 < slackSize then insertFreechunk sweeper slack slackSize else sweeper
      some (⟨block + gcBlockSize, 0⟩, freeSlackBlock sweeper blocks)
  else
    some ({ blocks with size := blocks.size + gcBlockSize }, sweeper)

def sweepRegionNormal (sweeper : Sweeper) (region : SmallRegion) : Option Sweeper := do
  let (blocks, sweeper) ←
    region.blocks.foldlM (sweepBlock region) (⟨region.start, 0⟩, sweeper)
  some (freeSlackBlock sweeper blocks)

def sweepSmallNormal (regions : List SmallRegion) (memory : Memory) :
    Option Swept := do
  let sweeper ← regions.foldlM sweepRegionNormal (initFreeindex memory)
  let (memory, chunks) := mergeFreeindex sweeper
  some { memory := memory, chunks := chunks, blocks := sweeper.blocks }

end LaTTe.Gc
