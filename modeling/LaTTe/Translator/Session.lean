import LaTTe.Data.Transition
import Mathlib.Logic.Function.Basic
import Mathlib.Algebra.Group.Int.Defs
import Mathlib.Algebra.Group.Nat.Defs

namespace LaTTe.Translator.Sma

open LaTTe.Data

/-! The session-based memory allocator.  The blocks since the last restart are kept beside the
session. -/

def maxSizeOfHeapStack : Nat := 15

def intMax : Int := 2147483647

structure Range where
  address : Int
  size : Int
  deriving DecidableEq

namespace Range

def Apart (range other : Range) : Prop :=
  range.address + range.size ≤ other.address ∨ other.address + other.size ≤ range.address

def Inside (range whole : Range) : Prop :=
  whole.address ≤ range.address ∧ range.address + range.size ≤ whole.address + whole.size

instance (range other : Range) : Decidable (range.Apart other) :=
  inferInstanceAs (Decidable (_ ∨ _))

end Range

structure Session where
  heapStackSize : Nat
  heapStack : Nat → Int
  heapSizeStack : Nat → Int
  currentHeap : Int
  currentHeapIndex : Nat
  currentHeapSize : Int
  currentHeapFreeSize : Int

/-- What `SMA_Alloc` was asked for, and the memory that it gave. -/
structure Block where
  request : Nat
  range : Range

/-- A session with the heap blocks that are allocated.  It is overrun when there was an access
behind an array, which leaves nothing to be said. -/
structure World where
  session : Session
  live : List Range
  blocks : List Block
  overrun : Bool

inductive Stop where
  | assertion
  | noMemory
  | endless
  | overrun
  deriving DecidableEq

/-- What `valloc` may return. -/
def Fresh (live : List Range) (heap : Range) : Prop :=
  0 < heap.address ∧ heap.address % 8 = 0 ∧ ∀ other ∈ live, heap.Apart other

instance (live : List Range) (heap : Range) : Decidable (Fresh live heap) :=
  inferInstanceAs (Decidable (_ ∧ _ ∧ _))

namespace Session

def heapAt (s : Session) (index : Nat) : Range :=
  ⟨s.heapStack index, s.heapSizeStack index⟩

def useHeap (s : Session) (index : Nat) : Session :=
  { s with
    currentHeapIndex := index
    currentHeap := s.heapStack index
    currentHeapSize := s.heapSizeStack index
    currentHeapFreeSize := s.heapSizeStack index }

def setCurrentHeap (s : Session) (index : Nat) : Except Stop Session :=
  if index < s.heapStackSize then
    if index < maxSizeOfHeapStack then
      .ok (s.useHeap index)
    else
      .error .overrun
  else
    .error .assertion

def grown (s : Session) (count : Nat) : Session :=
  { s with heapStackSize := count }

def setHeap (s : Session) (index : Nat) (size heap : Int) : Session :=
  { s with
    heapStack := Function.update s.heapStack index heap
    heapSizeStack := Function.update s.heapSizeStack index size }

def discard (s : Session) (live : List Range) (index : Nat) : List Range :=
  if s.heapStack index = 0 then live
  else live.filter fun other => other.address ≠ s.heapStack index

/-- `heap` is what `valloc` returns. -/
def allocateNewHeap (s : Session) (live : List Range) (index : Nat) (size heap : Int) :
    Except Stop (Session × List Range) :=
  if index < s.heapStackSize ∧ 0 < size then
    if index < maxSizeOfHeapStack then
      let live := s.discard live index
      if Fresh live ⟨heap, size⟩ then
        .ok (s.setHeap index size heap, ⟨heap, size⟩ :: live)
      else
        .error .noMemory
    else
      .error .overrun
  else
    .error .assertion

def double (n : Int) : Int :=
  (2 * n).bmod (2 ^ 32)

/-- `while (new_heap_size < size) new_heap_size *= 2`. -/
def enlarge : Nat → Int → Int → Except Stop Int
  | 0, _, _ => .error .endless
  | fuel + 1, newHeapSize, size =>
      if newHeapSize < size then enlarge fuel (double newHeapSize) size else .ok newHeapSize

def replaceHeap (fuel : Nat) (s : Session) (live : List Range) (index : Nat) (size heap : Int) :
    Except Stop (Session × List Range) := do
  let newHeapSize ← enlarge fuel (double s.currentHeapSize) size
  let (s, live) ← s.allocateNewHeap live index newHeapSize heap
  let s ← s.setCurrentHeap index
  if size < s.currentHeapFreeSize then .ok (s, live) else .error .assertion

def increaseHeap (fuel : Nat) (s : Session) (live : List Range) (size heap : Int) :
    Except Stop (Session × List Range) :=
  if s.currentHeapIndex + 1 < s.heapStackSize then do
    let s ← s.setCurrentHeap (s.currentHeapIndex + 1)
    if s.currentHeapFreeSize < size then
      s.replaceHeap fuel live s.currentHeapIndex size heap
    else
      .ok (s, live)
  else
    (s.grown (s.heapStackSize + 1)).replaceHeap fuel live s.heapStackSize size heap

end Session

def roundUp (size : Nat) : Int :=
  ((size + 8) / 8 * 8 : Nat)

namespace World

def take (w : World) (s : Session) (live : List Range) (request : Nat) : World :=
  let freeIndex := s.currentHeapSize - s.currentHeapFreeSize
  { w with
    session := { s with currentHeapFreeSize := s.currentHeapFreeSize - roundUp request }
    live := live
    blocks := ⟨request, s.currentHeap + freeIndex, roundUp request⟩ :: w.blocks }

/-- `heap` is what `valloc` returns if it is called. -/
def alloc (fuel : Nat) (w : World) (request : Nat) (heap : Int) : Except Stop World :=
  if roundUp request < intMax / 2 then
    if w.session.currentHeapFreeSize < roundUp request then do
      let (s, live) ← w.session.increaseHeap fuel w.live (roundUp request) heap
      .ok (w.take s live request)
    else
      .ok (w.take w.session w.live request)
  else
    .error .assertion

def restart (w : World) : World :=
  { w with
    session := { w.session with
      currentHeap := w.session.heapStack 0
      currentHeapIndex := 0
      currentHeapSize := w.session.heapSizeStack 0
      currentHeapFreeSize := w.session.heapSizeStack 0 }
    blocks := [] }

end World

def initSession (initialSize heap : Int) : Except Stop World := do
  let empty : Session := ⟨1, fun _ => 0, fun _ => 0, 0, 0, 0, 0⟩
  let (s, live) ← empty.allocateNewHeap [] 0 initialSize heap
  let s ← s.setCurrentHeap 0
  .ok ⟨s, live, [], false⟩

inductive Call where
  | alloc (request : Nat) (heap : Int)
  | restart

namespace World

def outcome (w : World) : Except Stop World → Option World
  | .ok next => some next
  | .error .overrun => some { w with overrun := true }
  | .error _ => none

def exec (fuel : Nat) (w : World) : Call → Option World
  | .alloc request heap => if w.overrun then none else w.outcome (w.alloc fuel request heap)
  | .restart => if w.overrun then none else some w.restart

structure Sound (w : World) : Prop where
  intact : w.overrun = false
  inside : ∀ block ∈ w.blocks, ∃ i < w.session.heapStackSize,
    w.session.heapAt i ∈ w.live ∧ block.range.Inside (w.session.heapAt i)
  apart : w.blocks.Pairwise fun block other => block.range.Apart other.range
  large : ∀ block ∈ w.blocks, block.request ≤ block.range.size
  aligned : ∀ block ∈ w.blocks, block.range.address % 8 = 0

def Keeps (w next : World) : Prop :=
  ∀ heap ∈ w.live, heap ∉ next.live → ∀ block ∈ w.blocks, block.range.Apart heap

def Fits (w : World) : Call → Prop
  | .restart => True
  | .alloc request _ =>
      roundUp request ≤ w.session.currentHeapFreeSize ∨
        w.session.currentHeapIndex + 1 < maxSizeOfHeapStack

end World

section

variable {α β : Type} {run : Except Stop α} {next : α → Except Stop β}

theorem ok_of_bind {result : β} (returned : run.bind next = .ok result) :
    ∃ middle, run = .ok middle ∧ next middle = .ok result := by
  cases run with
  | error stop => cases returned
  | ok middle => exact ⟨middle, rfl, returned⟩

theorem error_of_bind {stop : Stop} (stopped : run.bind next = .error stop) :
    run = .error stop ∨ ∃ middle, run = .ok middle ∧ next middle = .error stop := by
  cases run with
  | error other =>
      cases stopped
      exact .inl rfl
  | ok middle => exact .inr ⟨middle, rfl, stopped⟩

end

namespace Session

variable {s next : Session} {live rest : List Range} {index fuel : Nat} {size heap : Int}

/-! What each function does when it returns, and when it accesses an array behind its end. -/

theorem setCurrentHeap_eq (below : index < s.heapStackSize) (inside : index < maxSizeOfHeapStack) :
    s.setCurrentHeap index = .ok (s.useHeap index) := by
  rw [setCurrentHeap, if_pos below, if_pos inside]

theorem allocateNewHeap_ok (run : s.allocateNewHeap live index size heap = .ok (next, rest)) :
    index < s.heapStackSize ∧ 0 < size ∧ index < maxSizeOfHeapStack ∧
      Fresh (s.discard live index) ⟨heap, size⟩ ∧ next = s.setHeap index size heap ∧
      rest = ⟨heap, size⟩ :: s.discard live index := by
  rw [allocateNewHeap] at run
  split at run
  · rename_i valid
    split at run
    · rename_i inside
      dsimp only at run
      split at run
      · rename_i fresh
        cases run
        exact ⟨valid.1, valid.2, inside, fresh, rfl, rfl⟩
      · cases run
    · cases run
  · cases run

theorem allocateNewHeap_overrun (run : s.allocateNewHeap live index size heap = .error .overrun) :
    maxSizeOfHeapStack ≤ index := by
  rw [allocateNewHeap] at run
  split at run
  · split at run
    · dsimp only at run
      split at run <;> cases run
    · exact Nat.le_of_not_lt ‹_›
  · cases run

theorem enlarge_ne_overrun {first : Int} : enlarge fuel first size ≠ .error .overrun := by
  induction fuel generalizing first with
  | zero => exact nofun
  | succ fuel ih =>
      rw [enlarge]
      split
      · exact ih
      · exact nofun

theorem replaceHeap_ok (run : s.replaceHeap fuel live index size heap = .ok (next, rest)) :
    ∃ new, size < new ∧ index < s.heapStackSize ∧ 0 < new ∧ index < maxSizeOfHeapStack ∧
      Fresh (s.discard live index) ⟨heap, new⟩ ∧
      next = (s.setHeap index new heap).useHeap index ∧
      rest = ⟨heap, new⟩ :: s.discard live index := by
  obtain ⟨new, enlarged, run⟩ := ok_of_bind run
  obtain ⟨⟨middle, live'⟩, allocated, run⟩ := ok_of_bind run
  obtain ⟨below, positive, inside, fresh, rfl, rfl⟩ := allocateNewHeap_ok allocated
  obtain ⟨last, current, run⟩ := ok_of_bind run
  rw [setCurrentHeap_eq (by exact below) inside] at current
  cases current
  split at run
  · rename_i room
    cases run
    have size_eq : ((s.setHeap index new heap).useHeap index).currentHeapFreeSize = new :=
      Function.update_self ..
    rw [size_eq] at room
    exact ⟨new, room, below, positive, inside, fresh, rfl, rfl⟩
  · cases run

theorem replaceHeap_overrun (run : s.replaceHeap fuel live index size heap = .error .overrun) :
    maxSizeOfHeapStack ≤ index := by
  rcases error_of_bind run with stopped | ⟨new, _, run⟩
  · exact absurd stopped enlarge_ne_overrun
  · rcases error_of_bind run with stopped | ⟨⟨middle, live'⟩, allocated, run⟩
    · exact allocateNewHeap_overrun stopped
    · obtain ⟨below, _, inside, _, rfl, _⟩ := allocateNewHeap_ok allocated
      rcases error_of_bind run with stopped | ⟨last, _, run⟩
      · rw [setCurrentHeap_eq (by exact below) inside] at stopped
        cases stopped
      · split at run <;> cases run

end Session

end LaTTe.Translator.Sma
