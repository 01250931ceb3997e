import LaTTe.Data.Tiling
import LaTTe.Gc.Header

namespace LaTTe.Gc

open LaTTe.Data

/-! The small object area: regions cut into blocks, each used block cut into
object and free-space headers. -/

structure SmallRegion where
  start : Nat
  stop : Nat
  table : Nat → BitVec 32

namespace SmallRegion

/-- `table[index] & (1 << offset)` for the block at position `pos`. -/
def blockUsed (region : SmallRegion) (pos : Nat) : Bool :=
  region.table (pos / 32) &&& (1#32 <<< (pos % 32)) != 0#32

def blocks (region : SmallRegion) : List Nat :=
  (List.range ((region.stop - region.start + (gcBlockSize - 1)) / gcBlockSize)).map
    fun pos => region.start + pos * gcBlockSize

def blockPos (region : SmallRegion) (block : Nat) : Nat :=
  (block - region.start) / gcBlockSize

end SmallRegion

def firstHeader (block : Nat) : Nat :=
  block + (memAlign - gcHead)

def blockBound (block : Nat) : Nat :=
  block + (gcBlockSize - gcHead)

def headerSize (memory : Memory) (head : Nat) : Nat :=
  maskSize (memory head)

/-- The headers in `headers` cut the block from its first header to its end. -/
def BlockTiled (memory : Memory) (block : Nat) (headers : List Nat) : Prop :=
  Tiles (headerSize memory) (firstHeader block) headers (blockBound block)

end LaTTe.Gc
