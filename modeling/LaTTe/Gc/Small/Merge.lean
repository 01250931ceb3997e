import LaTTe.Gc.Small.Index

namespace LaTTe.Gc

open LaTTe.Data

/-! The end of a sweep: the index becomes one list of chunks. -/

theorem indexOrder_nodup : indexOrder.Nodup := by
  apply List.Nodup.map (fun a b same => Nat.add_right_cancel same)
  exact List.nodup_reverse.mpr List.nodup_range

theorem mem_indexOrder {index : Nat} :
    index ∈ indexOrder ↔ 0 < index ∧ index < smallChunksListIndexSize := by
  simp only [indexOrder, List.mem_map, List.mem_reverse, List.mem_range]
  constructor
  · rintro ⟨entry, below, rfl⟩
    omega
  · intro range
    exact ⟨index - 1, by omega, by omega⟩

-- a list of 511 entries is better not computed
attribute [local irreducible] indexOrder

def Harvest.merged (harvest : Harvest) : List Nat :=
  indexOrder.flatMap harvest.indexed

structure Kept (memory : Memory) (harvest : Harvest) (swept : Swept) : Prop where
  apart : harvest.spans.Pairwise SpansApart
  long : ∀ node ∈ harvest.chunks ++ harvest.blocks, 8 ≤ node.2 ∧ 0 < node.1
  short : ∀ chunk ∈ harvest.chunks, chunk.2 < gcBlockSize
  sizes : ∀ chunk ∈ harvest.chunks, swept.memory chunk.1 = setFlag chunk.2 .free
  chunkChain : Chain (link swept.memory) swept.chunks harvest.merged 0
  blockSizes : ∀ block ∈ harvest.blocks, swept.memory block.1 = block.2
  blockChain : Chain (link swept.memory) swept.blocks (harvest.blocks.map Prod.fst) 0
  cleared : ∀ head ∈ harvest.unmarked,
    swept.memory head = clearFlag (memory head) .mark
  frame : ∀ address,
    (∀ node ∈ harvest.chunks ++ harvest.blocks,
      address ≠ node.1 ∧ address ≠ node.1 + 4) →
    address ∉ harvest.unmarked → swept.memory address = memory address

section

variable {memory : Memory} {harvest : Harvest} {sweeper : Sweeper}

theorem Harvest.mem_merged
    (long : ∀ node ∈ harvest.chunks ++ harvest.blocks, 8 ≤ node.2 ∧ 0 < node.1)
    (short : ∀ chunk ∈ harvest.chunks, chunk.2 < gcBlockSize) {node : Nat} :
    node ∈ harvest.merged ↔ ∃ chunk ∈ harvest.chunks, chunk.1 = node := by
  simp only [Harvest.merged, List.mem_flatMap, mem_indexed, mem_indexOrder]
  constructor
  · rintro ⟨_, _, chunk, inChunks, _, same⟩
    exact ⟨chunk, inChunks, same⟩
  · rintro ⟨chunk, inChunks, same⟩
    have long := (long chunk (List.mem_append_left _ inChunks)).1
    have short := short chunk inChunks
    refine ⟨chunk.2 / memAlign, ?_, chunk, inChunks, rfl, same⟩
    unfold smallChunksListIndexSize gcBlockSize memAlign at *
    omega

theorem Built.indexed_apart (built : Built memory harvest sweeper)
    {indices : List Nat} (distinct : indices.Nodup) :
    (indices.flatMap harvest.indexed).Nodup := by
  rw [List.nodup_flatMap]
  refine ⟨fun index _ => built.indexed_nodup index, distinct.imp ?_⟩
  intro first second different node inFirst inSecond
  obtain ⟨chunk, inChunks, chunkIndex, same⟩ := mem_indexed.mp inFirst
  obtain ⟨other, inOthers, otherIndex, rfl⟩ := mem_indexed.mp inSecond
  rcases built.nodes_apart (List.mem_append_left _ inChunks)
    (List.mem_append_left _ inOthers) with rfl | apart
  · exact different (chunkIndex.symm.trans otherIndex)
  · omega

theorem Built.merged_nodup (built : Built memory harvest sweeper) :
    harvest.merged.Nodup := by
  rw [Harvest.merged]
  exact built.indexed_apart indexOrder_nodup

theorem Built.first_eq_zero (built : Built memory harvest sweeper) (index : Nat) :
    sweeper.first index = 0 ↔ harvest.indexed index = [] := by
  have chain := built.index index
  cases found : sweeper.tail index with
  | none =>
      rw [found] at chain
      simp [built.indexEmpty index found, show harvest.indexed index = [] from chain]
  | some last =>
      rw [found] at chain
      obtain ⟨front, same, links⟩ := chain
      have headMem : sweeper.first index ∈ harvest.indexed index := by
        cases front with
        | nil => simp [same, show sweeper.first index = last from links]
        | cons node rest => simp [same, links.1]
      obtain ⟨chunk, inChunks, _, isHead⟩ := mem_indexed.mp headMem
      have := (built.long chunk (List.mem_append_left _ inChunks)).2
      constructor
      · omega
      · simp [same]

structure Merging (sweeper : Sweeper) (harvest : Harvest) (done : List Nat)
    (state : (Memory × Nat) × Option Nat) : Prop where
  chain : OpenChain (link state.1.1) state.1.2 state.2 (done.flatMap harvest.indexed)
  rest : ∀ index, index ∉ done →
    OpenChain (link state.1.1) (sweeper.first index) (sweeper.tail index)
      (harvest.indexed index)
  frame : ∀ address, (∀ chunk ∈ harvest.chunks, address ≠ chunk.1 + 4) →
    state.1.1 address = sweeper.memory address

private theorem Merging.step (built : Built memory harvest sweeper)
    {done : List Nat} {index : Nat} {state : (Memory × Nat) × Option Nat}
    (distinct : (done ++ [index]).Nodup)
    (merging : Merging sweeper harvest done state) :
    Merging sweeper harvest (done ++ [index])
      (if sweeper.first index ≠ 0 then
        (linkTail state.1 state.2 (sweeper.first index), sweeper.tail index)
      else
        state) := by
  obtain ⟨⟨heap, head⟩, tail⟩ := state
  obtain ⟨chain, rest, frame⟩ := merging
  dsimp only at chain rest frame
  have fresh : index ∉ done := fun member =>
    (List.nodup_append.mp distinct).2.2 index member index (by simp) rfl
  have nodup := built.indexed_apart distinct
  rw [List.flatMap_append, List.flatMap_singleton] at nodup
  by_cases empty : sweeper.first index = 0
  · rw [if_neg (by simpa using empty)]
    refine ⟨?_, fun other notDone => rest other (by simp_all), frame⟩
    rw [List.flatMap_append, List.flatMap_singleton,
      (built.first_eq_zero index).mp empty, List.append_nil]
    exact chain
  · have nonempty : harvest.indexed index ≠ [] :=
      fun none => empty ((built.first_eq_zero index).mpr none)
    rw [if_pos empty]
    cases tail with
    | none =>
        refine ⟨?_, fun other notDone => rest other (by simp_all), frame⟩
        rw [List.flatMap_append, List.flatMap_singleton,
          show done.flatMap harvest.indexed = [] from chain]
        exact rest index fresh
    | some last =>
        have lastMem : last ∈ done.flatMap harvest.indexed := chain.tail_mem
        obtain ⟨doneIndex, inDone, lastIndexed⟩ := List.mem_flatMap.mp lastMem
        obtain ⟨lastChunk, lastInChunks, lastIndex, lastSame⟩ := mem_indexed.mp lastIndexed
        have linked : ∀ node, node ≠ last →
            link (heap.store (last + 4) (sweeper.first index)) node = link heap node :=
          fun node different => Memory.store_other _ _ (by omega)
        refine ⟨?_, ?_, ?_⟩
        · rw [List.flatMap_append, List.flatMap_singleton]
          apply chain.append (rest index fresh) nonempty nodup
          · exact Memory.store_same _ _ _
          · exact fun node _ different _ => linked node different
        · intro other notDone
          have notDone : other ∉ done ∧ other ≠ index := by simpa using notDone
          apply (rest other notDone.1).congr _ (built.indexed_nodup other)
          intro node member _
          apply linked
          rintro rfl
          obtain ⟨chunk, inChunks, chunkIndex, same⟩ := mem_indexed.mp member
          rcases built.nodes_apart (List.mem_append_left _ inChunks)
            (List.mem_append_left _ lastInChunks) with rfl | apart
          · exact notDone.1 (by rwa [← chunkIndex, lastIndex])
          · omega
        · intro address outside
          rw [← frame address outside]
          apply Memory.store_other
          have := outside lastChunk lastInChunks
          omega

private theorem Merging.run (built : Built memory harvest sweeper)
    {done : List Nat} (todo : List Nat) {state : (Memory × Nat) × Option Nat}
    (distinct : (done ++ todo).Nodup)
    (merging : Merging sweeper harvest done state) :
    Merging sweeper harvest (done ++ todo)
      (todo.foldl
        (fun state index =>
          if sweeper.first index ≠ 0 then
            (linkTail state.1 state.2 (sweeper.first index), sweeper.tail index)
          else
            state) state) := by
  induction todo generalizing done state with
  | nil => simpa using merging
  | cons index rest ih =>
      have split : done ++ index :: rest = done ++ [index] ++ rest := by simp
      rw [split] at distinct ⊢
      exact ih distinct (merging.step built (List.nodup_append.mp distinct).1)

/-- `merge_freeindex` keeps the chunks of the index and nothing else changes. -/
theorem mergeFreeindex_kept (built : Built memory harvest sweeper) :
    Kept memory harvest
      ⟨(mergeFreeindex sweeper).1, (mergeFreeindex sweeper).2, sweeper.blocks⟩ := by
  have start : Merging sweeper harvest [] ((sweeper.memory, 0), none) :=
    ⟨rfl, fun index _ => built.index index, fun _ _ => rfl⟩
  have merging := start.run built indexOrder
    (by rw [List.nil_append]; exact indexOrder_nodup)
  rw [List.nil_append] at merging
  unfold mergeFreeindex
  generalize indexOrder.foldl _ _ = state at merging
  obtain ⟨⟨heap, head⟩, tail⟩ := state
  obtain ⟨chain, _, frame⟩ := merging
  dsimp only at chain frame ⊢
  change OpenChain (link heap) head tail harvest.merged at chain
  have final : ∀ address, (∀ chunk ∈ harvest.chunks, address ≠ chunk.1 + 4) →
      (linkTail (heap, head) tail 0).1 address = sweeper.memory address := by
    intro address outside
    cases tail with
    | none => exact frame address outside
    | some last =>
        obtain ⟨chunk, inChunks, same⟩ :=
          (Harvest.mem_merged built.long built.short).mp chain.tail_mem
        have := outside chunk inChunks
        rw [← frame address outside]
        exact Memory.store_other _ _ (by omega)
  have word : ∀ node ∈ harvest.chunks ++ harvest.blocks,
      (linkTail (heap, head) tail 0).1 node.1 = sweeper.memory node.1 := by
    intro node member
    apply final
    intro chunk inChunks
    rcases built.nodes_apart member (List.mem_append_left _ inChunks) with rfl | apart
    · omega
    · omega
  refine ⟨built.apart, built.long, built.short, ?_, ?_, ?_, ?_, ?_, ?_⟩
  · intro chunk member
    dsimp only
    rw [word chunk (List.mem_append_left _ member), built.sizes chunk member]
  · cases tail with
    | none =>
        rw [show harvest.merged = [] from chain]
        rfl
    | some last =>
        have linked : OpenChain (link (heap.store (last + 4) 0)) head (some last)
            harvest.merged := by
          apply chain.congr _ built.merged_nodup
          intro node _ notLast
          apply Memory.store_other
          intro same
          exact notLast (congrArg some (by omega))
        exact linked.close (Memory.store_same _ _ _)
  · intro block member
    dsimp only
    rw [word block (List.mem_append_right _ member), built.blockSizes block member]
  · have links : ∀ node ∈ harvest.blocks.map Prod.fst,
        link (linkTail (heap, head) tail 0).1 node = link sweeper.memory node := by
      intro node member
      obtain ⟨block, inBlocks, rfl⟩ := List.mem_map.mp member
      apply final
      intro chunk inChunks
      have := built.chunk_block_apart inChunks inBlocks
      omega
    have blockChain := built.blockChain
    cases found : sweeper.tailBlock with
    | none =>
        rw [found] at blockChain
        rw [show harvest.blocks.map Prod.fst = [] from blockChain]
        exact built.blocksEmpty found
    | some last =>
        rw [found] at blockChain
        exact (blockChain.close (built.blocksEnd last found)).congr links
  · intro other member
    rw [← built.cleared other member]
    apply final
    intro chunk inChunks
    have := built.unmarked_apart (List.mem_append_left _ inChunks) member
    omega
  · intro address outside notHead
    rw [← built.frame address outside notHead]
    apply final
    intro chunk inChunks
    exact (outside chunk (List.mem_append_left _ inChunks)).2

theorem Kept.unique {first second : Swept} (kept : Kept memory harvest first)
    (kept' : Kept memory harvest second) : first = second := by
  obtain ⟨sameChunks, chunkLinks⟩ := kept.chunkChain.unique kept'.chunkChain
  obtain ⟨sameBlocks, blockLinks⟩ := kept.blockChain.unique kept'.blockChain
  have sameMemory : first.memory = second.memory := by
    funext address
    by_cases node : ∃ node ∈ harvest.chunks ++ harvest.blocks,
        address = node.1 ∨ address = node.1 + 4
    · obtain ⟨node, member, rfl | rfl⟩ := node
      · rcases List.mem_append.mp member with member | member
        · rw [kept.sizes node member, kept'.sizes node member]
        · rw [kept.blockSizes node member, kept'.blockSizes node member]
      · rcases List.mem_append.mp member with member | member
        · exact chunkLinks node.1
            ((Harvest.mem_merged kept.long kept.short).mpr ⟨node, member, rfl⟩)
        · exact blockLinks node.1 (List.mem_map_of_mem member)
    · by_cases head : address ∈ harvest.unmarked
      · rw [kept.cleared address head, kept'.cleared address head]
      · have outside : ∀ node ∈ harvest.chunks ++ harvest.blocks,
            address ≠ node.1 ∧ address ≠ node.1 + 4 := by
          intro entry member
          constructor <;> intro same <;> exact node ⟨entry, member, by simp [same]⟩
        rw [kept.frame address outside head, kept'.frame address outside head]
  cases first
  cases second
  simp_all

end

attribute [irreducible] Harvest.merged

end LaTTe.Gc
