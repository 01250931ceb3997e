import LaTTe.Gc.Mark.Finalize
import LaTTe.Gc.Small.MarkStack
import Mathlib.Data.Set.Card

namespace LaTTe.Gc

open LaTTe.Data

/-! The mark stack is shared by the marker and the selective sweep.  The sweep sorts the
live objects there, with as much room again as they take. -/

def sweepMarkStack (state : MarkState) (objects : BoundedArray) (n : Nat) :
    Option BoundedArray :=
  match state with
  | .collect => (sortMarkStack objects n).map (·.stack)
  | _ => some objects

/-- The mark stack between `mark_phase` and `sweep_phase`. -/
def Marker.markStack (heap : Heap) (marker : Marker) : BoundedArray where
  size := heap.stackSize
  entries := fun index => marker.stack.getD index 0

namespace Collector

def useMarkStack (collector : Collector) (fuel : Nat) : Option BoundedArray := do
  let (marker, _) ← Gc.markPhase collector.heap collector.roots collector.finals
    collector.heapSize fuel collector.memory
  sweepMarkStack marker.state (marker.markStack collector.heap) marker.stack.length

def StaysInMarkStack (collector : Collector) : Prop :=
  ∃ enough, ∀ fuel, enough ≤ fuel → ∃ stack, collector.useMarkStack fuel = some stack

def rootCount (collector : Collector) : Nat :=
  (rootObjects collector.heap collector.roots collector.objects).card

noncomputable def reachCount (collector : Collector) : Nat :=
  {p | collector.Reaches p}.ncard

/-- So many live objects that there is no room to sort them, and yet not so many that
collecting them is given up.  The heap size is an `int` there. -/
structure Crowded (collector : Collector) : Prop where
  exceeds : initialMarkStackSize < 2 * (collector.reachCount + 2)
  collected : collector.reachCount ≤ initialMarkStackSize / 2 + 1
  rooted : collector.rootCount ≤ initialMarkStackSize / 2
  heap : 128 * max collector.rootCount (collector.reachCount - 1) ≤
    collector.heapSize % 2 ^ 32
  positive : collector.heapSize % 2 ^ 32 ≤ 2 ^ 32 - 128

end Collector

theorem sweepMarkStack_returns_iff {state : MarkState} {objects : BoundedArray} {n : Nat} :
    (∃ stack, sweepMarkStack state objects n = some stack) ↔
      (state = .collect → 2 * (n + 2) ≤ objects.size) := by
  cases state with
  | collect =>
      simp only [sweepMarkStack, Option.map_eq_some_iff, true_implies]
      rw [← sortMarkStack_returns_iff]
      exact ⟨fun ⟨_, sorted, run, _⟩ => ⟨sorted, run⟩, fun ⟨sorted, run⟩ => ⟨_, sorted, run, rfl⟩⟩
  | normal => simp [sweepMarkStack]
  | overflow => simp [sweepMarkStack]

theorem le_markStackSuggestBound_iff {n : Nat} (heapSize : Nat) (positive : 0 < n) :
    n ≤ markStackSuggestBound initialMarkStackSize heapSize ↔
      n ≤ initialMarkStackSize / 2 ∧ 128 * n ≤ heapSize % 2 ^ 32 ∧
        heapSize % 2 ^ 32 ≤ 2 ^ 32 - 128 := by
  have signed : (heapSize : Int).bmod (2 ^ 32) =
      if heapSize % 2 ^ 32 < 2 ^ 31 then ((heapSize % 2 ^ 32 : Nat) : Int)
      else ((heapSize % 2 ^ 32 : Nat) : Int) - 2 ^ 32 := by
    rw [Int.bmod]
    split <;> split <;> omega
  have low : heapSize % 2 ^ 32 < 2 ^ 32 := Nat.mod_lt _ (by decide)
  simp only [markStackSuggestBound, signed, initialMarkStackSize]
  generalize heapSize % 2 ^ 32 = size at *
  by_cases nonneg : size < 2 ^ 31
  · rw [if_pos nonneg, Int.tdiv_eq_ediv_of_nonneg (by omega)]
    split <;> omega
  · have negative : ((size : Int) - 2 ^ 32).tdiv 128 = -((2 ^ 32 - size : Int) / 128) := by
      rw [← Int.neg_sub, Int.neg_tdiv, Int.tdiv_eq_ediv_of_nonneg (by omega)]
    rw [if_neg nonneg, negative]
    split <;> omega

namespace Collector

variable {collector : Collector} {marker : Marker}

theorem Pinned.stackLeft (pinned : Pinned collector) :
    ∃ enough, ∀ fuel, enough ≤ fuel → ∃ marker lists,
      Gc.markPhase collector.heap collector.roots collector.finals collector.heapSize fuel
        collector.memory = some (marker, lists) ∧
      (∀ p ∈ collector.objects, marker.isMarked p = true ↔ collector.Reaches p) ∧
      StackLeft collector.heap collector.roots collector.objects
        (markStackSuggestBound initialMarkStackSize collector.heapSize) marker := by
  obtain ⟨enough, returns⟩ :=
    markPhase_spec collector.wellFormed collector.rootsOk pinned.noneFinal collector.roomy
  refine ⟨enough, fun fuel more => ?_⟩
  obtain ⟨marker, later, kept, run, _, exactly, left⟩ := returns fuel more
  rw [pinned.split kept] at exactly
  rw [collector.stackSize] at left
  refine ⟨marker, _, run, fun p member => ?_, left⟩
  rw [exactly p member, List.map_nil, List.append_nil]
  rfl

theorem reachCount_eq
    (exactly : ∀ p ∈ collector.objects, marker.isMarked p = true ↔ collector.Reaches p) :
    collector.reachCount = (markedObjects collector.objects marker).card := by
  rw [← Set.ncard_coe_finset, reachCount]
  congr 1
  ext p
  rw [Finset.mem_coe, mem_markedObjects]
  constructor
  · exact fun reached => ⟨reached.mem, (exactly p reached.mem).mpr reached⟩
  · exact fun ⟨member, marked⟩ => (exactly p member).mp marked

theorem collects_iff {bound : Nat}
    (exactly : ∀ p ∈ collector.objects, marker.isMarked p = true ↔ collector.Reaches p)
    (left : StackLeft collector.heap collector.roots collector.objects bound marker) :
    marker.state = .collect ↔
      collector.rootCount ≤ bound ∧ collector.reachCount ≤ bound + 1 := by
  rw [reachCount_eq exactly]
  by_cases few : collector.rootCount ≤ bound
  · have gathering := left.few few
    constructor
    · intro collecting
      rw [gathering.card_eq left.entries collecting, ← gathering.bounded collecting]
      exact ⟨few, left.within collecting⟩
    · rintro ⟨_, small⟩
      by_contra other
      have := gathering.beyond other
      omega
  · have other := left.many (Nat.lt_of_not_le few)
    exact ⟨fun collecting => absurd collecting other, fun both => absurd both.1 few⟩

theorem crowded_iff :
    collector.Crowded ↔
      (collector.rootCount ≤ markStackSuggestBound initialMarkStackSize collector.heapSize ∧
        collector.reachCount ≤
          markStackSuggestBound initialMarkStackSize collector.heapSize + 1) ∧
      initialMarkStackSize < 2 * (collector.reachCount + 2) := by
  have size : initialMarkStackSize = 262144 := rfl
  have bound := @le_markStackSuggestBound_iff
    (max collector.rootCount (collector.reachCount - 1)) collector.heapSize
  constructor
  · intro crowded
    have exceeds := crowded.exceeds
    have collected := crowded.collected
    have rooted := crowded.rooted
    have below := (bound (by omega)).mpr ⟨by omega, crowded.heap, crowded.positive⟩
    exact ⟨⟨by omega, by omega⟩, exceeds⟩
  · rintro ⟨⟨rooted, collected⟩, exceeds⟩
    obtain ⟨half, heap, positive⟩ := (bound (by omega)).mp (by omega)
    exact ⟨exceeds, by omega, by omega, heap, positive⟩

theorem Pinned.staysInMarkStack_iff (pinned : Pinned collector) :
    collector.StaysInMarkStack ↔ ¬ collector.Crowded := by
  obtain ⟨enough, returns⟩ := pinned.stackLeft
  have uses : ∀ fuel, enough ≤ fuel →
      ((∃ stack, collector.useMarkStack fuel = some stack) ↔ ¬ collector.Crowded) := by
    intro fuel more
    obtain ⟨marker, lists, run, exactly, left⟩ := returns fuel more
    have collects := collects_iff exactly left
    have size : (marker.markStack collector.heap).size = initialMarkStackSize :=
      collector.stackSize
    rw [useMarkStack, run, Option.bind_eq_bind, Option.bind_some, sweepMarkStack_returns_iff,
      size, crowded_iff, ← collects, not_and, Nat.not_lt]
    refine forall_congr' fun collecting => ?_
    have few := (collects.mp collecting).1
    rw [reachCount_eq exactly, (left.few few).card_eq left.entries collecting]
  constructor
  · rintro ⟨enough', inside⟩
    exact (uses (max enough enough') (Nat.le_max_left _ _)).mp
      (inside (max enough enough') (Nat.le_max_right _ _))
  · exact fun roomy => ⟨enough, fun fuel more => (uses fuel more).mpr roomy⟩

/-- Over every run, a collection stays inside the mark stack exactly when the heap is not
crowded. -/
theorem staysInMarkStack_iff_not_crowded (collector : Collector)
    (reached : Reachable Initial Step collector) :
    collector.StaysInMarkStack ↔ ¬ collector.Crowded :=
  (pinned_of_reachable reached).staysInMarkStack_iff

/-! A heap of sixteen megabytes in which the roots refer to all the objects. -/

private def crowdObjects (n : Nat) : List Nat :=
  (List.range n).map fun i => 16 * (i + 1)

private theorem crowdObjects_nodup (n : Nat) : (crowdObjects n).Nodup := by
  apply List.Nodup.map _ List.nodup_range
  intro i j same
  change 16 * (i + 1) = 16 * (j + 1) at same
  omega

private theorem room_of_mem_crowdObjects {n p : Nat} (member : p ∈ crowdObjects n) : 16 ≤ p := by
  obtain ⟨i, _, rfl⟩ := List.mem_map.mp member
  omega

private def crowdHeap (n : Nat) : Heap where
  walk := fun p => if p = 0 then crowdObjects n else []
  stackSize := initialMarkStackSize
  largeObjects := [crowdObjects n]
  smallRegions := []

private def crowdRoots : Roots where
  bundles := [0]
  outOfMemoryError := 0
  liveThreads := []
  isObject := fun _ => false

private theorem crowd_objects (n : Nat) :
    (crowdHeap n).objects (fun _ => 0) (fun _ => []) = crowdObjects n := by
  simp [Heap.objects, Heap.usedBlocks, crowdHeap]

private theorem crowd_pointers (n : Nat) :
    crowdRoots.pointers (crowdHeap n) = crowdObjects n ++ [0] := by
  simp [Roots.pointers, crowdHeap, crowdRoots]

private theorem crowd_wellFormed (n : Nat) :
    (crowdHeap n).WellFormed (fun _ => 0) (fun _ => []) where
  scannable := by
    refine ⟨by simp [Heap.usedBlocks, crowdHeap], ?_, fun _ _ => rfl⟩
    intro p member
    have inside : p ∈ crowdObjects n := by
      simpa [Heap.scan, Heap.usedBlocks, crowdHeap] using member
    have := room_of_mem_crowdObjects inside
    unfold gcHead
    omega
  edges := by
    intro p member q edge
    rw [crowd_objects] at member
    have := room_of_mem_crowdObjects member
    change q ∈ if p = 0 then crowdObjects n else [] at edge
    rw [if_neg (by omega)] at edge
    contradiction

private def crowd (n : Nat) : Collector where
  heap := crowdHeap n
  roots := crowdRoots
  finals := ⟨[], []⟩
  memory := fun _ => 0
  layout := fun _ => []
  heapSize := 2 ^ 24
  stackSize := rfl
  wellFormed := crowd_wellFormed n
  rootsOk := by
    intro q member
    rw [crowd_pointers, List.mem_append, List.mem_singleton] at member
    rw [crowd_objects]
    rcases member with object | zero
    · exact .inr (.inl object)
    · exact .inl zero

private theorem crowd_reached (n : Nat) : Reachable Initial Step (crowd n) :=
  .start ⟨rfl, rfl⟩

private theorem mem_crowd {n p : Nat} : (crowd n).Reaches p ↔ p ∈ crowdObjects n := by
  constructor
  · intro reached
    have member := reached.mem
    rwa [Collector.objects, crowd, crowd_objects] at member
  · intro member
    refine .root ?_ ?_
    · rw [crowd, crowd_pointers]
      exact List.mem_append_left _ member
    · rw [Collector.objects, crowd, crowd_objects]
      exact member

private theorem crowd_card (n : Nat) : (crowdObjects n).toFinset.card = n := by
  rw [List.toFinset_card_of_nodup (crowdObjects_nodup n), crowdObjects, List.length_map,
    List.length_range]

private theorem crowd_reachCount (n : Nat) : (crowd n).reachCount = n := by
  have same : {p | (crowd n).Reaches p} = ((crowdObjects n).toFinset : Set Nat) := by
    ext p
    simp [mem_crowd]
  rw [reachCount, same, Set.ncard_coe_finset, crowd_card]

private theorem crowd_rootCount_le (n : Nat) : (crowd n).rootCount ≤ n := by
  have objects : (crowd n).objects = crowdObjects n := crowd_objects n
  rw [rootCount, rootObjects, objects]
  exact Nat.le_trans (Finset.card_filter_le _ _) (Nat.le_of_eq (crowd_card n))

theorem staysInMarkStack_iff_not_crowded_three :
    (crowd 3).StaysInMarkStack ↔ ¬ (crowd 3).Crowded :=
  staysInMarkStack_iff_not_crowded (crowd 3) (crowd_reached 3)

/-- With 131071 live objects the scratch half of the sort ends behind the mark stack. -/
theorem sort_leaves_markStack :
    ¬ ∀ collector, Reachable Initial Step collector → collector.StaysInMarkStack := by
  intro claim
  have stays := claim (crowd 131071) (crowd_reached 131071)
  apply (pinned_of_reachable (crowd_reached 131071)).staysInMarkStack_iff.mp stays
  have size : initialMarkStackSize = 262144 := rfl
  have heap : (crowd 131071).heapSize = 2 ^ 24 := rfl
  have roots := crowd_rootCount_le 131071
  have reach := crowd_reachCount 131071
  exact ⟨by omega, by omega, by omega, by omega, by omega⟩

end Collector

end LaTTe.Gc
