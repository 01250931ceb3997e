import LaTTe.Data.Transition
import LaTTe.Gc.Mark.Phase

namespace LaTTe.Gc

open LaTTe.Data

/-! Finalization.  Nodes of the finalization lists lie in fixed memory, which
`gc_malloc_fixed` marks for good. -/

def initialMarkStackSize : Nat := 256 * 1024

/-- `gc_set_finalizer`.  The node lies where `mem_allocate` puts it, and `word` is
the preheader it has there. -/
def gcSetFinalizer (memory : Memory) (finals : Finals) (node : FinalizeNode) (word : Nat) :
    Memory × Finals :=
  (memory.store (header node.address) (setFlag word .mark),
    { finals with hasFinal := node :: finals.hasFinal })

structure Collector where
  heap : Heap
  roots : Roots
  finals : Finals
  memory : Memory
  layout : Nat → List Nat
  heapSize : Nat
  stackSize : heap.stackSize = initialMarkStackSize
  wellFormed : heap.WellFormed memory layout
  rootsOk : ∀ q ∈ roots.pointers heap, Markable memory (heap.objects memory layout) q

namespace Collector

def objects (collector : Collector) : List Nat :=
  collector.heap.objects collector.memory collector.layout

def Reaches (collector : Collector) : Nat → Prop :=
  collector.heap.Reach collector.objects (collector.roots.pointers collector.heap)

/-- Allocations and stores of the program.  They neither free an object nor touch the
mark of a node. -/
structure Mutates (before after : Collector) : Prop where
  finals : after.finals = before.finals
  objects : ∀ p ∈ before.objects, p ∈ after.objects
  nodes : ∀ node ∈ before.finals.hasFinal,
    hasFlag (before.memory (header node.address)) .mark = true →
    hasFlag (after.memory (header node.address)) .mark = true

structure SetsFinalizer (before after : Collector) (node : FinalizeNode) (word : Nat) :
    Prop where
  object : node.object ∈ before.objects
  unset : ∀ other ∈ before.finals.hasFinal ++ before.finals.doFinal,
    other.object ≠ node.object
  written : (after.memory, after.finals) =
    gcSetFinalizer before.memory before.finals node word
  objects : ∀ p ∈ before.objects, p ∈ after.objects

/-- `sweep_phase` frees what is not marked and unmarks the rest.  Memory outside the
collected heap keeps its mark. -/
structure Sweeps (before : Collector) (marker : Marker) (after : Collector) : Prop where
  objects : ∀ p, p ∈ after.objects ↔ p ∈ before.objects ∧ marker.isMarked p = true
  fixed : ∀ p, p ∉ before.objects → marker.isMarked p = true →
    hasFlag (after.memory (header p)) .mark = true

def Collects (before after : Collector) : Prop :=
  ∃ marker, (∃ enough, ∀ fuel, enough ≤ fuel →
    markPhase before.heap before.roots before.finals before.heapSize fuel before.memory =
      some (marker, after.finals)) ∧ Sweeps before marker after

inductive Step : Collector → Collector → Prop where
  | mutate {before after : Collector} (mutates : Mutates before after) : Step before after
  | setFinalizer {before after : Collector} {node : FinalizeNode} {word : Nat}
      (sets : SetsFinalizer before after node word) : Step before after
  | collect {before after : Collector} (collects : Collects before after) : Step before after

def Initial (collector : Collector) : Prop :=
  collector.finals.hasFinal = [] ∧ collector.finals.doFinal = []

structure FinalizationRight (before after : Collector) : Prop where
  kept : ∀ node ∈ after.finals.hasFinal, before.Reaches node.object
  moved : ∀ node ∈ before.finals.hasFinal, ¬ before.Reaches node.object →
    (after.finals.doFinal.map (·.object)).count node.object = 1
  live : ∀ node ∈ after.finals.hasFinal ++ after.finals.doFinal, ∀ p,
    before.heap.Reach before.objects [node.object] p → p ∈ after.objects

end Collector

theorem Heap.Reach.mem {heap : Heap} {objects roots : List Nat} {p : Nat}
    (reached : heap.Reach objects roots p) : p ∈ objects := by
  cases reached with
  | root _ member => exact member
  | walk _ _ member => exact member

theorem Heap.Reach.trans {heap : Heap} {objects roots : List Nat} {p q : Nat}
    (first : heap.Reach objects roots p) (second : heap.Reach objects [p] q) :
    heap.Reach objects roots q := by
  induction second with
  | root isRoot _ =>
      rw [List.mem_singleton.mp isRoot]
      exact first
  | walk _ edge member ih => exact .walk ih edge member

theorem splitFinals_marked {memory : Memory} {finals : Finals}
    (marked : ∀ node ∈ finals.hasFinal, hasFlag (memory (header node.address)) .mark = true) :
    splitFinals memory finals = ⟨finals.hasFinal.reverse, finals.doFinal⟩ := by
  have fold : ∀ (nodes : List FinalizeNode) (lists : Finals),
      (∀ node ∈ nodes, hasFlag (memory (header node.address)) .mark = true) →
      nodes.foldl (fun lists node =>
        if hasFlag (memory (header node.address)) .mark then
          { lists with hasFinal := node :: lists.hasFinal }
        else
          { lists with doFinal := node :: lists.doFinal }) lists =
        ⟨nodes.reverse ++ lists.hasFinal, lists.doFinal⟩ := by
    intro nodes
    induction nodes with
    | nil => exact fun _ _ => rfl
    | cons head rest ih =>
        intro lists all
        rw [List.foldl_cons, if_pos (all head (by simp)),
          ih _ fun node member => all node (by simp [member])]
        simp
  rw [splitFinals, fold finals.hasFinal _ marked]
  simp

namespace Collector

structure Pinned (collector : Collector) : Prop where
  doFinal : collector.finals.doFinal = []
  marked : ∀ node ∈ collector.finals.hasFinal,
    hasFlag (collector.memory (header node.address)) .mark = true

variable {before after : Collector}

theorem Pinned.split (pinned : Pinned before) {later : Memory}
    (kept : ∀ p, hasFlag (before.memory (header p)) .mark = true →
      hasFlag (later (header p)) .mark = true) :
    splitFinals later before.finals = ⟨before.finals.hasFinal.reverse, []⟩ := by
  rw [splitFinals_marked fun node member => kept _ (pinned.marked node member), pinned.doFinal]

theorem Pinned.noneFinal (pinned : Pinned before) (later : Memory)
    (kept : ∀ p, hasFlag (before.memory (header p)) .mark = true →
      hasFlag (later (header p)) .mark = true) :
    ∀ node ∈ (splitFinals later before.finals).doFinal,
      Markable before.memory before.objects node.object := by
  intro node inList
  rw [pinned.split kept] at inList
  simp at inList

theorem roomy (collector : Collector) :
    markStackSuggestBound collector.heap.stackSize collector.heapSize + 1 <
      collector.heap.stackSize := by
  have bound := markStackSuggestBound_le collector.heap.stackSize collector.heapSize
    (by rw [collector.stackSize]; decide)
  have size : collector.heap.stackSize = 256 * 1024 := collector.stackSize
  omega

theorem Pinned.markPhase (pinned : Pinned before) :
    ∃ enough, ∀ fuel, enough ≤ fuel → ∃ marker,
      markPhase before.heap before.roots before.finals before.heapSize fuel before.memory =
        some (marker, ⟨before.finals.hasFinal.reverse, []⟩) ∧
      (∀ p, hasFlag (before.memory (header p)) .mark = true → marker.isMarked p = true) ∧
      ∀ p ∈ before.objects, marker.isMarked p = true ↔ before.Reaches p := by
  obtain ⟨enough, returns⟩ :=
    markPhase_spec before.wellFormed before.rootsOk pinned.noneFinal before.roomy
  refine ⟨enough, fun fuel more => ?_⟩
  obtain ⟨marker, later, kept, run, marks, exactly, _⟩ := returns fuel more
  rw [pinned.split kept] at run exactly
  refine ⟨marker, run, marks, ?_⟩
  intro p member
  rw [exactly p member, List.map_nil, List.append_nil]
  rfl

theorem Pinned.collects (pinned : Pinned before) (collects : Collects before after) :
    ∃ marker, Sweeps before marker after ∧
      after.finals = ⟨before.finals.hasFinal.reverse, []⟩ ∧
      (∀ p, hasFlag (before.memory (header p)) .mark = true → marker.isMarked p = true) ∧
      ∀ p ∈ before.objects, marker.isMarked p = true ↔ before.Reaches p := by
  obtain ⟨marker, ⟨enough, returns⟩, sweeps⟩ := collects
  obtain ⟨enough', returns'⟩ := pinned.markPhase
  obtain ⟨marker', run', marks, exactly⟩ :=
    returns' (max enough enough') (Nat.le_max_right _ _)
  have run := returns (max enough enough') (Nat.le_max_left _ _)
  obtain ⟨rfl, finals⟩ := Prod.mk.inj (Option.some.inj (run.symm.trans run'))
  exact ⟨marker, sweeps, finals, marks, exactly⟩

theorem Pinned.step (pinned : Pinned before) (step : Step before after) : Pinned after := by
  cases step with
  | mutate mutates =>
      refine ⟨?_, ?_⟩
      · rw [mutates.finals, pinned.doFinal]
      · intro node member
        rw [mutates.finals] at member
        exact mutates.nodes node member (pinned.marked node member)
  | @setFinalizer node word sets =>
      obtain ⟨memory, finals⟩ := Prod.mk.inj sets.written
      refine ⟨?_, ?_⟩
      · rw [finals]
        exact pinned.doFinal
      · intro other member
        rw [finals] at member
        rw [memory]
        by_cases same : header other.address = header node.address
        · rw [same, Memory.store_same]
          simp
        · rw [Memory.store_other _ _ same]
          rcases List.mem_cons.mp member with rfl | before
          · exact absurd rfl same
          · exact pinned.marked other before
  | collect collects =>
      obtain ⟨marker, sweeps, finals, marks, _⟩ := pinned.collects collects
      refine ⟨by rw [finals], ?_⟩
      intro node member
      rw [finals, List.mem_reverse] at member
      have isMarked := pinned.marked node member
      apply sweeps.fixed node.address _ (marks _ isMarked)
      -- objects of the collected heap carry no mark between collections
      intro isObject
      have unmarked := before.wellFormed.scannable.unmarked node.address
        (before.heap.objects_subset_scan _ _ isObject)
      rw [isMarked] at unmarked
      contradiction

theorem pinned_of_reachable {collector : Collector}
    (reached : Reachable Initial Step collector) : Pinned collector := by
  refine reached.invariant Pinned ?_ fun _ _ pinned taken => pinned.step taken
  intro start initial
  exact ⟨initial.2, by simp [initial.1]⟩

theorem Pinned.finalizationRight_iff (pinned : Pinned before) (collects : Collects before after) :
    FinalizationRight before after ↔
      ∀ node ∈ before.finals.hasFinal, before.Reaches node.object := by
  obtain ⟨marker, sweeps, finals, _, exactly⟩ := pinned.collects collects
  constructor
  · intro right node member
    exact right.kept node (by rw [finals]; exact List.mem_reverse.mpr member)
  · intro reachable
    refine ⟨?_, ?_, ?_⟩
    · intro node member
      rw [finals, List.mem_reverse] at member
      exact reachable node member
    · exact fun node member unreachable => absurd (reachable node member) unreachable
    · intro node member p reached
      rw [finals, List.append_nil, List.mem_reverse] at member
      have rooted := (reachable node member).trans reached
      exact (sweeps.objects p).mpr ⟨reached.mem, (exactly p reached.mem).mpr rooted⟩

/-- Over every run, each collection returns, and it treats finalization right exactly
when all the objects that have a finalizer are reachable. -/
theorem finalization_right_iff_reachable (collector : Collector)
    (reached : Reachable Initial Step collector) :
    (∃ enough, ∀ fuel, enough ≤ fuel → ∃ result,
      Gc.markPhase collector.heap collector.roots collector.finals collector.heapSize fuel
        collector.memory = some result) ∧
    ∀ after, Collects collector after → (FinalizationRight collector after ↔
      ∀ node ∈ collector.finals.hasFinal, collector.Reaches node.object) := by
  have pinned := pinned_of_reachable reached
  refine ⟨?_, fun _ collects => pinned.finalizationRight_iff collects⟩
  obtain ⟨enough, returns⟩ := pinned.markPhase
  refine ⟨enough, fun fuel more => ?_⟩
  obtain ⟨marker, run, _⟩ := returns fuel more
  exact ⟨_, run⟩

/-! An unreachable object. -/

def lone (objects : List Nat) (finals : Finals) (memory : Memory)
    (unmarked : ∀ p ∈ objects, gcHead ≤ p ∧ hasFlag (memory (header p)) .mark = false) :
    Collector where
  heap := {
    walk := fun _ => []
    stackSize := initialMarkStackSize
    largeObjects := [objects]
    smallRegions := [] }
  roots := { bundles := [], outOfMemoryError := 0, liveThreads := [], isObject := fun _ => false }
  finals := finals
  memory := memory
  layout := fun _ => []
  heapSize := 128
  stackSize := rfl
  wellFormed := by
    refine ⟨⟨by simp [Heap.usedBlocks], ?_, ?_⟩, by simp⟩
    · intro p member
      exact (unmarked p (by simpa [Heap.scan, Heap.usedBlocks] using member)).1
    · intro p member
      exact (unmarked p (by simpa [Heap.scan, Heap.usedBlocks] using member)).2
  rootsOk := by
    intro q member
    exact .inl (by simpa [Roots.pointers] using member)

theorem mem_lone {objects : List Nat} {finals : Finals} {memory : Memory}
    {unmarked : ∀ p ∈ objects, gcHead ≤ p ∧ hasFlag (memory (header p)) .mark = false} {p : Nat} :
    p ∈ (lone objects finals memory unmarked).objects ↔ p ∈ objects := by
  simp [Collector.objects, lone, Heap.objects, Heap.usedBlocks]

private def deadNode : FinalizeNode := ⟨48, 16, 0⟩

private def deadMemory : Memory :=
  Memory.store (fun _ => 0) 44 (setFlag 0 .mark)

private def beforeFinalizer : Collector :=
  lone [16] ⟨[], []⟩ (fun _ => 0) (by decide)

private def withFinalizer : Collector :=
  lone [16] ⟨[deadNode], []⟩ deadMemory (by decide)

private def withoutObject : Collector :=
  lone [] ⟨[deadNode], []⟩ deadMemory (by decide)

private theorem withFinalizer_reached : Reachable Initial Step withFinalizer := by
  have initially : Initial beforeFinalizer := ⟨rfl, rfl⟩
  have sets : SetsFinalizer beforeFinalizer withFinalizer deadNode 0 := by
    refine ⟨?_, by simp [beforeFinalizer, lone], rfl, ?_⟩
    · exact mem_lone.mpr (by decide)
    · exact fun p member => mem_lone.mpr (mem_lone.mp member)
  exact (Reachable.start initially).tail (.setFinalizer sets)

theorem finalization_right_iff_reachable_withFinalizer :
    (∃ enough, ∀ fuel, enough ≤ fuel → ∃ result,
      Gc.markPhase withFinalizer.heap withFinalizer.roots withFinalizer.finals
        withFinalizer.heapSize fuel withFinalizer.memory = some result) ∧
    ∀ after, Collects withFinalizer after → (FinalizationRight withFinalizer after ↔
      ∀ node ∈ withFinalizer.finals.hasFinal, withFinalizer.Reaches node.object) :=
  finalization_right_iff_reachable withFinalizer withFinalizer_reached

private def idleMarker (state : MarkState) (limit : Nat) : Marker where
  memory := deadMemory
  state := state
  stack := []
  cursor := 0
  saveCursor := 0
  limit := limit

private theorem idleMarker_walk (limit fuel : Nat) :
    walkMarkStack withFinalizer.heap fuel (idleMarker .collect limit) =
      some (idleMarker .collect limit) := by
  cases fuel <;> rfl

private theorem withFinalizer_bound :
    markStackSuggestBound withFinalizer.heap.stackSize withFinalizer.heapSize = 1 := by
  have size : withFinalizer.heap.stackSize = 256 * 1024 := withFinalizer.stackSize
  have heapSize : withFinalizer.heapSize = 128 := rfl
  rw [size, heapSize]
  decide

private theorem withFinalizer_markPhase (fuel : Nat) :
    Gc.markPhase withFinalizer.heap withFinalizer.roots withFinalizer.finals
      withFinalizer.heapSize fuel withFinalizer.memory =
        some (idleMarker .collect 2, withoutObject.finals) := by
  have walked : walkRoots withFinalizer.heap withFinalizer.roots
      (idleMarker .normal withFinalizer.heap.stackSize) =
        some (idleMarker .normal withFinalizer.heap.stackSize) := rfl
  have split : splitFinals (idleMarker .collect 2).memory withFinalizer.finals =
      withoutObject.finals := rfl
  have nothing : withoutObject.finals.doFinal = [] := rfl
  have memory : withFinalizer.memory = deadMemory := rfl
  have walk := idleMarker_walk 2 fuel
  have finals : walkFinals withFinalizer.heap fuel withFinalizer.finals
      (idleMarker .collect 2) = some (idleMarker .collect 2, withoutObject.finals) := by
    simp only [walkFinals, split, nothing, List.foldlM_nil, Option.pure_def,
      Option.bind_eq_bind, Option.bind_some, walk]
  unfold idleMarker at walked walk finals ⊢
  simp only [Gc.markPhase, withFinalizer_bound, memory, walked, Option.bind_eq_bind,
    Option.bind_some, List.length_nil, Nat.zero_le, if_true, walk, finals]

private theorem withFinalizer_collects : Collects withFinalizer withoutObject := by
  refine ⟨idleMarker .collect 2, ⟨0, fun fuel _ => withFinalizer_markPhase fuel⟩, ?_, ?_⟩
  · intro p
    rw [withoutObject, mem_lone, withFinalizer, mem_lone]
    refine ⟨by simp, ?_⟩
    rintro ⟨member, isMarked⟩
    rw [List.mem_singleton.mp member] at isMarked
    contradiction
  · exact fun p _ isMarked => isMarked

/-- The node stays on the list of those that have a finalizer although the object has
been freed. -/
theorem finalization_loses_unreachable :
    ¬ ∀ before after, Reachable Initial Step before → Collects before after →
      FinalizationRight before after := by
  intro claim
  have right := claim withFinalizer withoutObject withFinalizer_reached withFinalizer_collects
  have reached := right.kept deadNode List.mem_cons_self
  have noRoot : ∀ p, withFinalizer.Reaches p → p = 0 := by
    intro p reached
    induction reached with
    | root isRoot _ => exact List.mem_singleton.mp isRoot
    | walk _ edge _ => exact absurd edge List.not_mem_nil
  exact absurd (noRoot 16 reached) (by decide)

end Collector

end LaTTe.Gc
