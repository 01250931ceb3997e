import LaTTe.Gc.Mark.Phase
import LaTTe.Gc.Small.Agreement

namespace LaTTe.Gc

open LaTTe.Data

/-! A mark phase that ends in the collecting state leaves the set of live objects on the
mark stack, from its bottom to its top. -/

/-- The stack holds objects of the heap, each of them as often as it has been marked in this
collection. -/
structure Marker.ListsMarked (objects : List Nat) (marker : Marker) : Prop where
  entries : ∀ p ∈ marker.stack, p ∈ objects
  marked : ∀ p ∈ objects, marker.isMarked p = true → marker.stack.count p = 1
  unmarked : ∀ p ∈ objects, marker.isMarked p = false → marker.stack.count p = 0

section

variable {heap : Heap} {roots : Roots} {finals : Finals} {memory : Memory}
  {layout : Nat → List Nat} {objects : List Nat} {bound : Nat} {marker : Marker}

theorem Gathering.listsMarked {limit : Nat}
    (gathering : Gathering objects .collect limit marker)
    (entries : ∀ p ∈ marker.stack, p ∈ objects) (collecting : marker.state = .collect) :
    marker.ListsMarked objects := by
  have listed := gathering.listed collecting
  constructor
  · exact entries
  · intro p member isMarked
    exact List.count_eq_one_of_mem (gathering.distinct collecting)
      ((listed p member).mp isMarked)
  · intro p member notMarked
    apply List.count_eq_zero.mpr
    intro inStack
    rw [(listed p member).mpr inStack] at notMarked
    cases notMarked

theorem StackLeft.listsMarked (left : StackLeft heap roots objects bound marker)
    (collecting : marker.state = .collect) : marker.ListsMarked objects := by
  rcases Nat.lt_or_ge bound (rootObjects heap roots objects).card with many | few
  · exact absurd collecting (left.many many)
  · exact (left.few few).listsMarked left.entries collecting

/-- The mark phase returns, and if it is still collecting then every marked object is on the
mark stack once, whether the roots or the finalizable objects led to it. -/
theorem markPhase_lists_marked_once (roomy : 3 ≤ heap.stackSize)
    (isInt : heap.stackSize < 2 ^ 31) (heapSize : Nat)
    (wellFormed : heap.WellFormed memory layout)
    (rootsOk : ∀ q ∈ roots.pointers heap, Markable memory (heap.objects memory layout) q)
    (finalsOk : ∀ node ∈ finals.hasFinal ++ finals.doFinal,
      Markable memory (heap.objects memory layout) node.object) :
    ∃ enough, ∀ fuel, enough ≤ fuel → ∃ marker lists,
      markPhase heap roots finals heapSize fuel memory = some (marker, lists) ∧
        (marker.state = .collect → marker.ListsMarked (heap.objects memory layout)) := by
  have bounded : markStackSuggestBound heap.stackSize heapSize + 1 < heap.stackSize := by
    have := markStackSuggestBound_le heap.stackSize heapSize isInt
    omega
  obtain ⟨enough, returns⟩ := markPhase_spec wellFormed rootsOk
    (fun later _ node inList => finalsOk node (splitFinals_doFinal later finals inList)) bounded
  refine ⟨enough, fun fuel more => ?_⟩
  obtain ⟨marker, later, _, run, _, _, left⟩ := returns fuel more
  exact ⟨marker, splitFinals later finals, run, left.listsMarked⟩

end

/-! Two small objects behind free memory: the roots refer to the first one, and the second
one is finalizable. -/

private def pairMemory : Memory := fun address =>
  if address = 4100 then setFlag 16 .free
  else if address = 4116 then 24
  else if address = 4140 then 4048
  else 0

private def pairHeap : Heap where
  walk := fun _ => []
  stackSize := 256 * 1024
  largeObjects := []
  smallRegions := [sampleRegion]

private def pairRoots : Roots where
  bundles := []
  outOfMemoryError := 4120
  liveThreads := []
  isObject := fun _ => false

private def pairFinals : Finals :=
  ⟨[], [⟨8192, 4144, 0⟩]⟩

private theorem pair_objects : pairHeap.objects pairMemory sampleLayout = [4120, 4144] := by
  decide

private theorem pair_wellFormed : pairHeap.WellFormed pairMemory sampleLayout where
  scannable := by
    have blocks : pairHeap.usedBlocks = [4096] := by decide
    have scan : pairHeap.scan sampleLayout = [4104, 4120, 4144] := by decide
    constructor
    · intro block inUse
      rw [blocks, List.mem_singleton] at inUse
      rw [inUse]
      exact ⟨rfl, by decide, rfl, by decide, rfl, by decide, rfl⟩
    · rw [scan]
      decide
    · rw [scan]
      decide
  edges := fun _ _ _ edge => absurd edge List.not_mem_nil

theorem markPhase_lists_marked_once_pair :
    ∃ enough, ∀ fuel, enough ≤ fuel → ∃ marker lists,
      markPhase pairHeap pairRoots pairFinals 4096 fuel pairMemory = some (marker, lists) ∧
        (marker.state = .collect →
          marker.ListsMarked (pairHeap.objects pairMemory sampleLayout)) := by
  apply markPhase_lists_marked_once (by decide) (by decide) 4096 pair_wellFormed
  · intro q member
    obtain rfl : q = 4120 := by simpa [Roots.pointers, pairRoots] using member
    exact .inr (.inl (by rw [pair_objects]; decide))
  · intro node member
    obtain rfl := List.mem_singleton.mp member
    exact .inr (.inl (by rw [pair_objects]; decide))

end LaTTe.Gc
