import LaTTe.Data.Loop
import LaTTe.Gc.Small.Area

namespace LaTTe.Gc

open LaTTe.Data

/-! The mark phase.  A pointer into the mark stack is kept as its distance
from the bottom: the stack list holds the entries from `mark_stack[0]` to
`*mark_top`, and `limit` is `mark_bound - mark_stack + 1`. -/

inductive MarkState where
  | collect
  | normal
  | overflow
  deriving DecidableEq, Repr

structure Marker where
  memory : Memory
  state : MarkState
  stack : List Nat
  cursor : Nat
  saveCursor : Nat
  limit : Nat

/-- What the mark phase reads and never changes.  `walk p` lists the values
that the walk function of `p` passes to `mark`, in order. -/
structure Heap where
  walk : Nat → List Nat
  stackSize : Nat
  largeObjects : List (List Nat)
  smallRegions : List SmallRegion

def Marker.isMarked (marker : Marker) (p : Nat) : Bool :=
  hasFlag (marker.memory (header p)) .mark

/-- `mark_top++; *mark_top = p`; a write past the end of the stack is no
defined behaviour. -/
def push (heap : Heap) (marker : Marker) (p : Nat) : Option Marker :=
  if marker.stack.length < heap.stackSize then
    some { marker with stack := marker.stack ++ [p] }
  else
    none

def setMark (marker : Marker) (p : Nat) : Marker :=
  { marker with
    memory := marker.memory.store (header p)
      (setFlag (marker.memory (header p)) .mark) }

/-- The branch of `mark` taken when the stack has reached its bound. -/
def markOverflow (heap : Heap) (marker : Marker) (p : Nat) : Option Marker :=
  match marker.state with
  | .collect =>
      push heap
        { marker with
          saveCursor := marker.cursor
          cursor := marker.stack.length + 1
          limit := heap.stackSize
          state := .normal } p
  | _ => some { marker with state := .overflow }

def mark (heap : Heap) (marker : Marker) (p : Nat) : Option Marker :=
  if p = 0 ∨ marker.isMarked p = true then
    some marker
  else
    let marker := setMark marker p
    if marker.stack.length < marker.limit then
      push heap marker p
    else
      markOverflow heap marker p

/-- `WALK(p)`. -/
def walk (heap : Heap) (marker : Marker) (p : Nat) : Option Marker :=
  (heap.walk p).foldlM (mark heap) marker

def walkMarked (heap : Heap) (marker : Marker) (p : Nat) : Option Marker :=
  if marker.isMarked p then walk heap marker p else some marker

def walkLargeObjects (heap : Heap) (marker : Marker) : Option Marker :=
  heap.largeObjects.foldlM
    (fun marker chain => chain.foldlM (walkMarked heap) marker) marker

/-- The header loop of `walk_small_objects` over one block. -/
def walkSmallBlock (heap : Heap) (bound : Nat) :
    Nat → Nat → Marker → Option Marker
  | 0, _, _ => none
  | fuel + 1, head, marker =>
      if head < bound then
        (walkMarked heap marker (head + gcHead)).bind
          (walkSmallBlock heap bound fuel
            (head + headerSize marker.memory head))
      else
        some marker

def walkSmallRegion (heap : Heap) (region : SmallRegion) (marker : Marker) :
    Option Marker :=
  region.blocks.foldlM
    (fun marker block =>
      if region.blockUsed (region.blockPos block) then
        walkSmallBlock heap (blockBound block) gcBlockSize
          (firstHeader block) marker
      else
        some marker) marker

def walkSmallObjects (heap : Heap) (marker : Marker) : Option Marker :=
  heap.smallRegions.foldlM
    (fun marker region => walkSmallRegion heap region marker) marker

def handleStackOverflow (heap : Heap) (marker : Marker) : Option Marker :=
  (walkLargeObjects heap marker).bind (walkSmallObjects heap)

/-- `while (mark_cursor <= mark_top) { WALK(*mark_cursor); mark_cursor++; }`. -/
def collectLoop (heap : Heap) (fuel : Nat) (marker : Marker) : Option Marker :=
  whileLoop (fun marker => decide (marker.cursor < marker.stack.length))
    (fun marker => do
      let p ← marker.stack[marker.cursor]?
      let marker ← walk heap marker p
      some { marker with cursor := marker.cursor + 1 })
    fuel marker

/-- `while (mark_top >= mark_stack) { p = *mark_top; mark_top--; WALK(p); }`. -/
def drainLoop (heap : Heap) (fuel : Nat) (marker : Marker) : Option Marker :=
  whileLoop (fun marker => !marker.stack.isEmpty)
    (fun marker => do
      let p ← marker.stack.getLast?
      walk heap { marker with stack := marker.stack.dropLast } p)
    fuel marker

/-- The endless loop of `walk_mark_stack`, left when no overflow is pending. -/
def rescanLoop (heap : Heap) (fuel : Nat) : Nat → Marker → Option Marker
  | 0, _ => none
  | rounds + 1, marker => do
      let marker ← drainLoop heap fuel marker
      if marker.state = .overflow then
        let marker ← handleStackOverflow heap { marker with state := .normal }
        rescanLoop heap fuel rounds marker
      else
        some marker

def walkMarkStack (heap : Heap) (fuel : Nat) (marker : Marker) :
    Option Marker :=
  if marker.state = .collect then do
    let marker ← collectLoop heap fuel marker
    if marker.state = .collect then
      some marker
    else
      -- memmove of the entries from mark_save_cursor to mark_top
      rescanLoop heap fuel fuel
        { marker with stack := marker.stack.drop marker.saveCursor }
  else
    rescanLoop heap fuel fuel marker

/-- The roots in the order `walk_roots` visits them: objects of the root
bundles, the preallocated error and the threads with their stack words. -/
structure Roots where
  bundles : List Nat
  outOfMemoryError : Nat
  liveThreads : List (Nat × List Nat)
  isObject : Nat → Bool

def markPotential (heap : Heap) (roots : Roots) (marker : Marker) (p : Nat) :
    Option Marker :=
  if roots.isObject p then mark heap marker p else some marker

def walkRoots (heap : Heap) (roots : Roots) (marker : Marker) :
    Option Marker := do
  let marker ← roots.bundles.foldlM (walk heap) marker
  let marker ← mark heap marker roots.outOfMemoryError
  roots.liveThreads.foldlM
    (fun marker thread => do
      let marker ← mark heap marker thread.1
      thread.2.foldlM (markPotential heap roots) marker) marker

/-- A node of the finalization lists; `address` is where it is allocated. -/
structure FinalizeNode where
  address : Nat
  object : Nat
  final : Nat

structure Finals where
  hasFinal : List FinalizeNode
  doFinal : List FinalizeNode

/-- The first loop of `walk_finals`.  It tests the header of the node. -/
def splitFinals (memory : Memory) (finals : Finals) : Finals :=
  finals.hasFinal.foldl
    (fun lists node =>
      if hasFlag (memory (header node.address)) .mark then
        { lists with hasFinal := node :: lists.hasFinal }
      else
        { lists with doFinal := node :: lists.doFinal })
    { hasFinal := [], doFinal := finals.doFinal }

def walkFinals (heap : Heap) (fuel : Nat) (finals : Finals)
    (marker : Marker) : Option (Marker × Finals) := do
  let finals := splitFinals marker.memory finals
  let marker ← finals.doFinal.foldlM
    (fun marker node => mark heap marker node.object) marker
  let marker ← walkMarkStack heap fuel marker
  some (marker, finals)

/-- `heap_size / 128` in `int`, stored to an unsigned word and doubled there. -/
def markStackSuggestBound (stackSize heapSize : Nat) : Nat :=
  let signed : Int := (heapSize : Int).bmod (2 ^ 32)
  let b := (signed.tdiv 128 % 2 ^ 32).toNat
  if stackSize ≤ 2 * b % 2 ^ 32 then stackSize / 2 else b

def markPhase (heap : Heap) (roots : Roots) (finals : Finals)
    (heapSize fuel : Nat) (memory : Memory) : Option (Marker × Finals) := do
  let marker ← walkRoots heap roots
    { memory := memory, state := .normal, stack := [], cursor := 0,
      saveCursor := 0, limit := heap.stackSize }
  let bound := markStackSuggestBound heap.stackSize heapSize
  let marker :=
    if marker.stack.length ≤ bound then
      { marker with cursor := 0, limit := bound + 1, state := .collect }
    else
      marker
  let marker ← walkMarkStack heap fuel marker
  walkFinals heap fuel finals marker

end LaTTe.Gc
