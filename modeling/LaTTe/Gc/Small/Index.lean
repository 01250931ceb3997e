import LaTTe.Data.Linked
import LaTTe.Gc.Small.Sweep

namespace LaTTe.Gc

open LaTTe.Data

/-! What a sweep has collected so far, and that the index and the free blocks
list hold just that. -/

def link (memory : Memory) (node : Nat) : Nat :=
  memory (node + 4)

structure Harvest where
  chunks : List (Nat × Nat)
  blocks : List (Nat × Nat)
  unmarked : List Nat

namespace Harvest

instance : Append Harvest where
  append left right :=
    ⟨left.chunks ++ right.chunks, left.blocks ++ right.blocks,
      left.unmarked ++ right.unmarked⟩

@[simp] theorem append_chunks (left right : Harvest) :
    (left ++ right).chunks = left.chunks ++ right.chunks :=
  rfl

@[simp] theorem append_blocks (left right : Harvest) :
    (left ++ right).blocks = left.blocks ++ right.blocks :=
  rfl

@[simp] theorem append_unmarked (left right : Harvest) :
    (left ++ right).unmarked = left.unmarked ++ right.unmarked :=
  rfl

theorem append_assoc (first second third : Harvest) :
    first ++ second ++ third = first ++ (second ++ third) := by
  show Harvest.mk _ _ _ = Harvest.mk _ _ _
  simp

def spans (harvest : Harvest) : List (Nat × Nat) :=
  harvest.chunks ++ harvest.blocks ++ harvest.unmarked.map fun head => (head, 4)

def indexed (harvest : Harvest) (index : Nat) : List Nat :=
  (harvest.chunks.filter fun chunk => chunk.2 / memAlign = index).map Prod.fst

def chunk (address size : Nat) : Harvest := ⟨[(address, size)], [], []⟩

def block (address size : Nat) : Harvest := ⟨[], [(address, size)], []⟩

def head (address : Nat) : Harvest := ⟨[], [], [address]⟩

end Harvest

def SpansApart (span other : Nat × Nat) : Prop :=
  span.1 + span.2 ≤ other.1 ∨ other.1 + other.2 ≤ span.1

instance : Std.Symm SpansApart :=
  ⟨fun _ _ => Or.symm⟩

structure Built (memory : Memory) (harvest : Harvest) (sweeper : Sweeper) : Prop where
  apart : harvest.spans.Pairwise SpansApart
  long : ∀ node ∈ harvest.chunks ++ harvest.blocks, 8 ≤ node.2 ∧ 0 < node.1
  short : ∀ chunk ∈ harvest.chunks, chunk.2 < gcBlockSize
  sizes : ∀ chunk ∈ harvest.chunks, sweeper.memory chunk.1 = setFlag chunk.2 .free
  index : ∀ i, OpenChain (link sweeper.memory) (sweeper.first i) (sweeper.tail i)
    (harvest.indexed i)
  indexEmpty : ∀ i, sweeper.tail i = none → sweeper.first i = 0
  blockSizes : ∀ block ∈ harvest.blocks, sweeper.memory block.1 = block.2
  blockChain : OpenChain (link sweeper.memory) sweeper.blocks sweeper.tailBlock
    (harvest.blocks.map Prod.fst)
  blocksEmpty : sweeper.tailBlock = none → sweeper.blocks = 0
  blocksEnd : ∀ last, sweeper.tailBlock = some last → link sweeper.memory last = 0
  cleared : ∀ head ∈ harvest.unmarked,
    sweeper.memory head = clearFlag (memory head) .mark
  frame : ∀ address,
    (∀ node ∈ harvest.chunks ++ harvest.blocks,
      address ≠ node.1 ∧ address ≠ node.1 + 4) →
    address ∉ harvest.unmarked → sweeper.memory address = memory address

theorem initFreeindex_built (memory : Memory) :
    Built memory ⟨[], [], []⟩ (initFreeindex memory) where
  apart := by simp [Harvest.spans]
  long := by simp
  short := by simp
  sizes := by simp
  index := fun _ => rfl
  indexEmpty := fun _ _ => rfl
  blockSizes := by simp
  blockChain := rfl
  blocksEmpty := fun _ => rfl
  blocksEnd := by simp [initFreeindex]
  cleared := by simp
  frame := fun _ _ _ => rfl

section

variable {memory : Memory} {harvest : Harvest} {sweeper : Sweeper}

theorem Built.nodes_apart (built : Built memory harvest sweeper) {node other : Nat × Nat}
    (member : node ∈ harvest.chunks ++ harvest.blocks)
    (memberOther : other ∈ harvest.chunks ++ harvest.blocks) :
    node = other ∨ node.1 + 8 ≤ other.1 ∨ other.1 + 8 ≤ node.1 := by
  by_cases same : node = other
  · exact .inl same
  · have spanMem : ∀ {entry : Nat × Nat}, entry ∈ harvest.chunks ++ harvest.blocks →
        entry ∈ harvest.spans := fun h => List.mem_append_left _ h
    have apart := built.apart.forall (spanMem member) (spanMem memberOther) same
    have := built.long node member
    have := built.long other memberOther
    unfold SpansApart at apart
    omega

theorem Built.chunk_block_apart (built : Built memory harvest sweeper)
    {chunk block : Nat × Nat} (inChunks : chunk ∈ harvest.chunks)
    (inBlocks : block ∈ harvest.blocks) :
    chunk.1 + 8 ≤ block.1 ∨ block.1 + 8 ≤ chunk.1 := by
  have apart := (List.pairwise_append.mp
    (List.pairwise_append.mp built.apart).1).2.2 chunk inChunks block inBlocks
  have := built.long chunk (List.mem_append_left _ inChunks)
  have := built.long block (List.mem_append_right _ inBlocks)
  unfold SpansApart at apart
  omega

theorem Built.node_of_fresh (built : Built memory harvest sweeper) {address length : Nat}
    (fresh : ∀ span ∈ harvest.spans, SpansApart span (address, length)) :
    ∀ node ∈ harvest.chunks ++ harvest.blocks,
      node.1 + 8 ≤ address ∨ address + length ≤ node.1 := by
  intro node member
  have apart := fresh node (List.mem_append_left _ member)
  have := built.long node member
  unfold SpansApart at apart
  dsimp only at apart
  omega

theorem head_of_fresh {address length : Nat}
    (fresh : ∀ span ∈ harvest.spans, SpansApart span (address, length)) :
    ∀ head ∈ harvest.unmarked, head + 4 ≤ address ∨ address + length ≤ head :=
  fun _ member => fresh _ (List.mem_append_right _ (List.mem_map_of_mem member))

theorem Built.unmarked_apart (built : Built memory harvest sweeper)
    {node : Nat × Nat} {head : Nat}
    (member : node ∈ harvest.chunks ++ harvest.blocks)
    (memberHead : head ∈ harvest.unmarked) :
    head + 4 ≤ node.1 ∨ node.1 + 8 ≤ head := by
  have apart := (List.pairwise_append.mp built.apart).2.2 node member (head, 4)
    (List.mem_map_of_mem memberHead)
  have := built.long node member
  unfold SpansApart at apart
  dsimp only at apart
  omega

section

variable (sweeper : Sweeper) (chunk size : Nat)

theorem insertFreechunk_memory_self :
    (insertFreechunk sweeper chunk size).memory chunk = setFlag size .free := by
  simp [insertFreechunk]

theorem insertFreechunk_memory_other {address : Nat} (different : address ≠ chunk)
    (notLink : ∀ node, sweeper.tail (size / memAlign) = some node →
      address ≠ node + 4) :
    (insertFreechunk sweeper chunk size).memory address = sweeper.memory address := by
  cases found : sweeper.tail (size / memAlign) with
  | none => simp [insertFreechunk, found, Memory.store_other _ _ different]
  | some node =>
      simp [insertFreechunk, found, Memory.store_other _ _ different,
        Memory.store_other _ _ (notLink node found)]

theorem insertFreechunk_memory_link {node : Nat}
    (found : sweeper.tail (size / memAlign) = some node)
    (different : node + 4 ≠ chunk) :
    (insertFreechunk sweeper chunk size).memory (node + 4) = chunk := by
  simp [insertFreechunk, found, Memory.store_other _ _ different]

theorem insertFreechunk_tail (index : Nat) :
    (insertFreechunk sweeper chunk size).tail index =
      if index = size / memAlign then some chunk else sweeper.tail index := by
  cases found : sweeper.tail (size / memAlign) <;>
    simp [insertFreechunk, found, setEntry]

theorem insertFreechunk_first (index : Nat) :
    (insertFreechunk sweeper chunk size).first index =
      if index = size / memAlign ∧ sweeper.tail index = none then chunk
      else sweeper.first index := by
  cases found : sweeper.tail (size / memAlign) with
  | none =>
      simp only [insertFreechunk, found, setEntry]
      split
      · rename_i same
        simp [same, found]
      · rename_i different
        simp [different]
  | some node =>
      simp only [insertFreechunk, found]
      split
      · rename_i same
        rw [same.1, found] at same
        simp at same
      · rfl

theorem insertFreechunk_blocks :
    (insertFreechunk sweeper chunk size).blocks = sweeper.blocks ∧
      (insertFreechunk sweeper chunk size).tailBlock = sweeper.tailBlock := by
  cases found : sweeper.tail (size / memAlign) <;> simp [insertFreechunk, found]

end

theorem mem_indexed {index node : Nat} :
    node ∈ harvest.indexed index ↔
      ∃ entry ∈ harvest.chunks, entry.2 / memAlign = index ∧ entry.1 = node := by
  simp [Harvest.indexed, and_assoc]

theorem Built.indexed_nodup (built : Built memory harvest sweeper) (index : Nat) :
    (harvest.indexed index).Nodup := by
  have pairwise : harvest.chunks.Pairwise SpansApart :=
    (List.pairwise_append.mp (List.pairwise_append.mp built.apart).1).1
  rw [Harvest.indexed, List.Nodup, List.pairwise_map]
  apply (pairwise.filter _).imp_of_mem
  intro first second inFirst inSecond apart
  have := built.long first (List.mem_append_left _ (List.mem_filter.mp inFirst).1)
  have := built.long second (List.mem_append_left _ (List.mem_filter.mp inSecond).1)
  unfold SpansApart at apart
  omega

theorem Built.blocks_nodup (built : Built memory harvest sweeper) :
    (harvest.blocks.map Prod.fst).Nodup := by
  have pairwise : harvest.blocks.Pairwise SpansApart :=
    (List.pairwise_append.mp (List.pairwise_append.mp built.apart).1).2.1
  rw [List.Nodup, List.pairwise_map]
  apply pairwise.imp_of_mem
  intro first second inFirst inSecond apart
  have := built.long first (List.mem_append_right _ inFirst)
  have := built.long second (List.mem_append_right _ inSecond)
  unfold SpansApart at apart
  omega

private theorem spans_append_apart {extra : Harvest}
    (pairwise : harvest.spans.Pairwise SpansApart)
    (extraPairwise : extra.spans.Pairwise SpansApart)
    (fresh : ∀ new ∈ extra.spans, ∀ span ∈ harvest.spans, SpansApart span new) :
    (harvest ++ extra).spans.Pairwise SpansApart := by
  have perm : (harvest ++ extra).spans.Perm (harvest.spans ++ extra.spans) := by
    simp only [Harvest.spans, Harvest.append_chunks, Harvest.append_blocks,
      Harvest.append_unmarked, List.map_append]
    rw [List.perm_iff_count]
    intro span
    simp only [List.count_append]
    omega
  refine (perm.pairwise_iff (R := SpansApart) Or.symm).mpr ?_
  exact List.pairwise_append.mpr ⟨pairwise, extraPairwise,
    fun span member new memberNew => fresh new memberNew span member⟩

/-- Nodes and headers when a new node at `address` has been linked behind the old tail. -/
structure Rewritten (harvest : Harvest) (tail : Option Nat) (before after : Memory) : Prop where
  word : ∀ node ∈ harvest.chunks ++ harvest.blocks, after node.1 = before node.1
  links : ∀ node ∈ harvest.chunks ++ harvest.blocks, tail ≠ some node.1 →
    link after node.1 = link before node.1
  heads : ∀ head ∈ harvest.unmarked, after head = before head

theorem Built.rewritten (built : Built memory harvest sweeper) {address length : Nat}
    (long : 8 ≤ length) (fresh : ∀ span ∈ harvest.spans, SpansApart span (address, length))
    {tail : Option Nat} {after : Memory}
    (tailNode : ∀ node, tail = some node →
      ∃ entry ∈ harvest.chunks ++ harvest.blocks, entry.1 = node)
    (others : ∀ a, a ≠ address → a ≠ address + 4 → (∀ node, tail = some node → a ≠ node + 4) →
      after a = sweeper.memory a) : Rewritten harvest tail sweeper.memory after where
  word node member := by
    have := built.node_of_fresh fresh node member
    refine others _ (by omega) (by omega) fun last found => ?_
    obtain ⟨entry, inNodes, rfl⟩ := tailNode last found
    rcases built.nodes_apart member inNodes with rfl | apart
    · omega
    · omega
  links node member notTail := by
    have := built.node_of_fresh fresh node member
    refine others _ (by omega) (by omega) fun last found same => notTail ?_
    rw [found]
    congr 1
    omega
  heads head member := by
    have := head_of_fresh fresh head member
    refine others _ (by omega) (by omega) fun last found => ?_
    obtain ⟨entry, inNodes, rfl⟩ := tailNode last found
    have := built.unmarked_apart inNodes member
    omega

theorem Built.insertFreechunk (built : Built memory harvest sweeper)
    {address length : Nat} (long : 8 ≤ length) (short : length < gcBlockSize)
    (positive : 0 < address)
    (fresh : ∀ span ∈ harvest.spans, SpansApart span (address, length)) :
    Built memory (harvest ++ .chunk address length)
      (insertFreechunk sweeper address length) := by
  have away : ∀ node ∈ harvest.chunks ++ harvest.blocks,
      node.1 + 8 ≤ address ∨ address + 8 ≤ node.1 := fun node member =>
    (built.node_of_fresh fresh node member).imp_right (Nat.le_trans (Nat.add_le_add_left long _))
  have tailNode : ∀ node, sweeper.tail (length / memAlign) = some node →
      ∃ entry ∈ harvest.chunks, entry.2 / memAlign = length / memAlign ∧
        entry.1 = node := by
    intro node found
    have chain := built.index (length / memAlign)
    rw [found] at chain
    exact mem_indexed.mp chain.tail_mem
  obtain ⟨word, links, heads⟩ := built.rewritten long fresh
    (fun node found => have ⟨entry, inChunks, _, same⟩ := tailNode node found
      ⟨entry, List.mem_append_left _ inChunks, same⟩)
    fun _ notSize _ notLink => insertFreechunk_memory_other sweeper address length notSize notLink
  refine ⟨?_, ?_, ?_, ?_, ?_, ?_, ?_, ?_, ?_, ?_, ?_, ?_⟩
  · exact spans_append_apart built.apart (by simp [Harvest.spans, Harvest.chunk])
      (by simpa [Harvest.spans, Harvest.chunk] using fresh)
  · intro node member
    simp only [Harvest.append_chunks, Harvest.append_blocks, Harvest.chunk,
      List.append_nil, List.mem_append, List.mem_singleton] at member
    rcases member with (member | rfl) | member
    · exact built.long node (List.mem_append_left _ member)
    · exact ⟨long, positive⟩
    · exact built.long node (List.mem_append_right _ member)
  · intro node member
    rcases List.mem_append.mp member with member | member
    · exact built.short node member
    · obtain rfl : node = (address, length) := by simpa [Harvest.chunk] using member
      exact short
  · intro node member
    rcases List.mem_append.mp member with member | member
    · rw [word node (List.mem_append_left _ member)]
      exact built.sizes node member
    · obtain rfl : node = (address, length) := by simpa [Harvest.chunk] using member
      exact insertFreechunk_memory_self sweeper address length
  · intro i
    have nodup := built.indexed_nodup i
    have chain := built.index i
    rw [insertFreechunk_tail, insertFreechunk_first]
    by_cases same : i = length / memAlign
    · subst same
      have grown : (harvest ++ .chunk address length).indexed (length / memAlign) =
          harvest.indexed (length / memAlign) ++ [address] := by
        simp [Harvest.indexed, Harvest.chunk, List.filter_append]
      rw [grown, if_pos rfl]
      refine chain.push nodup (fun member => ?_) (fun none => if_pos ⟨rfl, none⟩)
        (fun some => if_neg fun both => some both.2) (fun last found => ?_) fun node member => ?_
      · obtain ⟨old, inChunks, _, same⟩ := mem_indexed.mp member
        have := away old (List.mem_append_left _ inChunks)
        omega
      · obtain ⟨entry, inChunks, _, rfl⟩ := tailNode last found
        have := away entry (List.mem_append_left _ inChunks)
        exact insertFreechunk_memory_link sweeper address length found (by omega)
      · obtain ⟨old, inChunks, _, rfl⟩ := mem_indexed.mp member
        exact links old (List.mem_append_left _ inChunks)
    · have unchanged : (harvest ++ .chunk address length).indexed i =
          harvest.indexed i := by
        simp [Harvest.indexed, Harvest.chunk, List.filter_append, Ne.symm same]
      rw [unchanged, if_neg same, if_neg (fun both => same both.1)]
      apply chain.congr _ nodup
      intro node member _
      obtain ⟨old, inChunks, oldIndex, rfl⟩ := mem_indexed.mp member
      apply links old (List.mem_append_left _ inChunks)
      intro isTail
      obtain ⟨entry, inEntries, entryIndex, equal⟩ := tailNode old.1 isTail
      rcases built.nodes_apart (List.mem_append_left _ inChunks)
        (List.mem_append_left _ inEntries) with rfl | apart
      · exact same (oldIndex.symm.trans entryIndex)
      · omega
  · intro i
    rw [insertFreechunk_tail, insertFreechunk_first]
    by_cases same : i = length / memAlign
    · simp [same]
    · simpa [same] using built.indexEmpty i
  · intro node member
    have member : node ∈ harvest.blocks := by simpa [Harvest.chunk] using member
    rw [word node (List.mem_append_right _ member)]
    exact built.blockSizes node member
  · have notTail : ∀ block ∈ harvest.blocks,
        sweeper.tail (length / memAlign) ≠ some block.1 := by
      intro block member isTail
      obtain ⟨entry, inChunks, _, equal⟩ := tailNode block.1 isTail
      have := built.chunk_block_apart inChunks member
      omega
    rw [(insertFreechunk_blocks sweeper address length).1,
      (insertFreechunk_blocks sweeper address length).2, Harvest.append_blocks,
      Harvest.chunk, List.append_nil]
    apply built.blockChain.congr _ built.blocks_nodup
    intro node member _
    obtain ⟨block, inBlocks, rfl⟩ := List.mem_map.mp member
    exact links block (List.mem_append_right _ inBlocks) (notTail block inBlocks)
  · rw [(insertFreechunk_blocks sweeper address length).1,
      (insertFreechunk_blocks sweeper address length).2]
    exact built.blocksEmpty
  · intro last isLast
    rw [(insertFreechunk_blocks sweeper address length).2] at isLast
    have chain := built.blockChain
    rw [isLast] at chain
    obtain ⟨block, inBlocks, rfl⟩ := List.mem_map.mp chain.tail_mem
    rw [links block (List.mem_append_right _ inBlocks)]
    · exact built.blocksEnd _ isLast
    · intro isTail
      obtain ⟨entry, inChunks, _, equal⟩ := tailNode block.1 isTail
      have := built.chunk_block_apart inChunks inBlocks
      omega
  · intro head member
    have member : head ∈ harvest.unmarked := by simpa [Harvest.chunk] using member
    rw [heads head member, built.cleared head member]
  · intro other outside notHead
    simp only [Harvest.append_chunks, Harvest.append_blocks, Harvest.append_unmarked,
      Harvest.chunk, List.append_nil, List.mem_append, List.mem_singleton] at outside notHead
    rw [insertFreechunk_memory_other]
    · apply built.frame other _ notHead
      intro node member
      rcases List.mem_append.mp member with member | member
      · exact outside node (.inl (.inl member))
      · exact outside node (.inr member)
    · exact (outside (address, length) (.inl (.inr rfl))).1
    · intro last found
      obtain ⟨entry, inChunks, _, rfl⟩ := tailNode last found
      exact (outside entry (.inl (.inl inChunks))).2

section

variable (sweeper : Sweeper) (block size : Nat)

theorem insertFreeblock_memory_other {address : Nat} (notSize : address ≠ block)
    (notNext : address ≠ block + 4)
    (notLink : ∀ node, sweeper.tailBlock = some node → address ≠ node + 4) :
    (insertFreeblock sweeper block size).memory address = sweeper.memory address := by
  cases found : sweeper.tailBlock with
  | none =>
      simp [insertFreeblock, found, Memory.store_other _ _ notSize,
        Memory.store_other _ _ notNext]
  | some node =>
      simp [insertFreeblock, found, Memory.store_other _ _ notSize,
        Memory.store_other _ _ notNext, Memory.store_other _ _ (notLink node found)]

theorem insertFreeblock_memory_self
    (notLink : ∀ node, sweeper.tailBlock = some node →
      block ≠ node + 4 ∧ block + 4 ≠ node + 4) :
    (insertFreeblock sweeper block size).memory block = size ∧
      (insertFreeblock sweeper block size).memory (block + 4) = 0 := by
  cases found : sweeper.tailBlock with
  | none => simp [insertFreeblock, found, Memory.store]
  | some node =>
      have := notLink node found
      simp [insertFreeblock, found, Memory.store, this.1]
      omega

theorem insertFreeblock_memory_link {node : Nat} (found : sweeper.tailBlock = some node) :
    (insertFreeblock sweeper block size).memory (node + 4) = block := by
  simp [insertFreeblock, found]

theorem insertFreeblock_tailBlock :
    (insertFreeblock sweeper block size).tailBlock = some block := by
  cases found : sweeper.tailBlock <;> simp [insertFreeblock, found]

theorem insertFreeblock_blocks :
    (insertFreeblock sweeper block size).blocks =
      if sweeper.tailBlock = none then block else sweeper.blocks := by
  cases found : sweeper.tailBlock <;> simp [insertFreeblock, found]

theorem insertFreeblock_index :
    (insertFreeblock sweeper block size).first = sweeper.first ∧
      (insertFreeblock sweeper block size).tail = sweeper.tail := by
  cases found : sweeper.tailBlock <;> simp [insertFreeblock, found]

end

theorem Built.insertFreeblock (built : Built memory harvest sweeper)
    {address length : Nat} (long : 8 ≤ length) (positive : 0 < address)
    (fresh : ∀ span ∈ harvest.spans, SpansApart span (address, length)) :
    Built memory (harvest ++ .block address length)
      (insertFreeblock sweeper address length) := by
  have away : ∀ node ∈ harvest.chunks ++ harvest.blocks,
      node.1 + 8 ≤ address ∨ address + 8 ≤ node.1 := fun node member =>
    (built.node_of_fresh fresh node member).imp_right (Nat.le_trans (Nat.add_le_add_left long _))
  have tailNode : ∀ node, sweeper.tailBlock = some node →
      ∃ entry ∈ harvest.blocks, entry.1 = node := by
    intro node found
    have chain := built.blockChain
    rw [found] at chain
    exact List.mem_map.mp chain.tail_mem
  have self := insertFreeblock_memory_self sweeper address length (by
    intro node found
    obtain ⟨entry, inBlocks, rfl⟩ := tailNode node found
    have := away entry (List.mem_append_right _ inBlocks)
    omega)
  obtain ⟨word, links, heads⟩ := built.rewritten long fresh
    (fun node found => have ⟨entry, inBlocks, same⟩ := tailNode node found
      ⟨entry, List.mem_append_right _ inBlocks, same⟩)
    fun _ notSize notNext notLink =>
      insertFreeblock_memory_other sweeper address length notSize notNext notLink
  refine ⟨?_, ?_, ?_, ?_, ?_, ?_, ?_, ?_, ?_, ?_, ?_, ?_⟩
  · exact spans_append_apart built.apart (by simp [Harvest.spans, Harvest.block])
      (by simpa [Harvest.spans, Harvest.block] using fresh)
  · intro node member
    simp only [Harvest.append_chunks, Harvest.append_blocks, Harvest.block,
      List.append_nil, List.mem_append, List.mem_singleton] at member
    rcases member with member | member | rfl
    · exact built.long node (List.mem_append_left _ member)
    · exact built.long node (List.mem_append_right _ member)
    · exact ⟨long, positive⟩
  · simpa [Harvest.block] using built.short
  · intro node member
    have member : node ∈ harvest.chunks := by simpa [Harvest.block] using member
    rw [word node (List.mem_append_left _ member)]
    exact built.sizes node member
  · intro i
    have unchanged : (harvest ++ .block address length).indexed i =
        harvest.indexed i := by
      simp [Harvest.indexed, Harvest.block]
    rw [(insertFreeblock_index sweeper address length).1,
      (insertFreeblock_index sweeper address length).2, unchanged]
    apply (built.index i).congr _ (built.indexed_nodup i)
    intro node member _
    obtain ⟨chunk, inChunks, _, rfl⟩ := mem_indexed.mp member
    apply links chunk (List.mem_append_left _ inChunks)
    intro isTail
    obtain ⟨entry, inBlocks, equal⟩ := tailNode chunk.1 isTail
    have := built.chunk_block_apart inChunks inBlocks
    omega
  · rw [(insertFreeblock_index sweeper address length).1,
      (insertFreeblock_index sweeper address length).2]
    exact built.indexEmpty
  · intro node member
    rcases List.mem_append.mp member with member | member
    · rw [word node (List.mem_append_right _ member)]
      exact built.blockSizes node member
    · obtain rfl : node = (address, length) := by simpa [Harvest.block] using member
      exact self.1
  · rw [insertFreeblock_tailBlock, insertFreeblock_blocks, Harvest.append_blocks,
      Harvest.block, List.map_append]
    refine built.blockChain.push built.blocks_nodup (fun member => ?_) (if_pos ·) (if_neg ·)
      (fun last found => insertFreeblock_memory_link sweeper address length found)
      fun node member => ?_
    · obtain ⟨old, inBlocks, same⟩ := List.mem_map.mp member
      have := away old (List.mem_append_right _ inBlocks)
      omega
    · obtain ⟨old, inBlocks, rfl⟩ := List.mem_map.mp member
      exact links old (List.mem_append_right _ inBlocks)
  · rw [insertFreeblock_tailBlock]
    simp
  · intro last isLast
    rw [insertFreeblock_tailBlock] at isLast
    obtain rfl := Option.some.inj isLast
    exact self.2
  · intro head member
    have member : head ∈ harvest.unmarked := by simpa [Harvest.block] using member
    rw [heads head member, built.cleared head member]
  · intro other outside notHead
    simp only [Harvest.append_chunks, Harvest.append_blocks, Harvest.append_unmarked,
      Harvest.block, List.append_nil, List.mem_append, List.mem_singleton] at outside notHead
    have new := outside (address, length) (.inr (.inr rfl))
    rw [insertFreeblock_memory_other]
    · apply built.frame other _ notHead
      intro node member
      rcases List.mem_append.mp member with member | member
      · exact outside node (.inl member)
      · exact outside node (.inr (.inl member))
    · exact new.1
    · exact new.2
    · intro last found
      obtain ⟨entry, inBlocks, rfl⟩ := tailNode last found
      exact (outside entry (.inr (.inl inBlocks))).2

theorem Built.read (built : Built memory harvest sweeper) {address : Nat}
    (fresh : ∀ span ∈ harvest.spans, SpansApart span (address, 4)) :
    sweeper.memory address = memory address := by
  apply built.frame
  · intro node member
    have := built.node_of_fresh fresh node member
    omega
  · intro member
    have := head_of_fresh fresh address member
    omega

theorem Built.unmark (built : Built memory harvest sweeper) {head : Nat}
    (fresh : ∀ span ∈ harvest.spans, SpansApart span (head, 4)) :
    Built memory (harvest ++ .head head) (unmark sweeper head) := by
  have away := built.node_of_fresh fresh
  have word : ∀ node ∈ harvest.chunks ++ harvest.blocks,
      (Gc.unmark sweeper head).memory node.1 = sweeper.memory node.1 := by
    intro node member
    have := away node member
    exact Memory.store_other _ _ (by omega)
  have links : ∀ node ∈ harvest.chunks ++ harvest.blocks,
      link (Gc.unmark sweeper head).memory node.1 = link sweeper.memory node.1 := by
    intro node member
    have := away node member
    exact Memory.store_other _ _ (by omega)
  have chunks : (harvest ++ .head head).chunks = harvest.chunks := List.append_nil _
  have blocks : (harvest ++ .head head).blocks = harvest.blocks := List.append_nil _
  refine ⟨?_, ?_, ?_, ?_, ?_, built.indexEmpty, ?_, ?_, built.blocksEmpty, ?_, ?_, ?_⟩
  · exact spans_append_apart built.apart (by simp [Harvest.spans, Harvest.head])
      (by simpa [Harvest.spans, Harvest.head] using fresh)
  · rw [chunks, blocks]
    exact built.long
  · rw [chunks]
    exact built.short
  · rw [chunks]
    intro chunk member
    rw [word chunk (List.mem_append_left _ member), built.sizes chunk member]
  · intro i
    rw [Harvest.indexed, chunks]
    apply (built.index i).congr _ (built.indexed_nodup i)
    intro node member _
    obtain ⟨chunk, inChunks, _, rfl⟩ := mem_indexed.mp member
    exact links chunk (List.mem_append_left _ inChunks)
  · rw [blocks]
    intro block member
    rw [word block (List.mem_append_right _ member), built.blockSizes block member]
  · rw [blocks]
    apply built.blockChain.congr _ built.blocks_nodup
    intro node member _
    obtain ⟨block, inBlocks, rfl⟩ := List.mem_map.mp member
    exact links block (List.mem_append_right _ inBlocks)
  · intro last isLast
    have chain := built.blockChain
    rw [show sweeper.tailBlock = some last from isLast] at chain
    obtain ⟨block, inBlocks, rfl⟩ := List.mem_map.mp chain.tail_mem
    rw [links block (List.mem_append_right _ inBlocks)]
    exact built.blocksEnd _ isLast
  · intro other member
    rcases List.mem_append.mp member with member | member
    · have apart := fresh (other, 4)
        (List.mem_append_right _ (List.mem_map_of_mem member))
      have different : other ≠ head := by
        unfold SpansApart at apart
        dsimp only at apart
        omega
      rw [← built.cleared other member]
      exact Memory.store_other _ _ different
    · obtain rfl : other = head := by simpa [Harvest.head] using member
      rw [← built.read fresh]
      exact Memory.store_same _ _ _
  · rw [chunks, blocks]
    intro other outside notHead
    simp only [Harvest.append_unmarked, Harvest.head, List.mem_append,
      List.mem_singleton, not_or] at notHead
    rw [← built.frame other outside notHead.1]
    exact Memory.store_other _ _ notHead.2

end

end LaTTe.Gc
