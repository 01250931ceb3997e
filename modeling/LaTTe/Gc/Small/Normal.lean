import LaTTe.Gc.Small.Gaps

namespace LaTTe.Gc

open LaTTe.Data

/-- A small object area as a sweep finds it: regions of whole blocks in
ascending order, and each used block cut by the headers of its layout. -/
structure AreaTiled (regions : List SmallRegion) (memory : Memory)
    (layout : Nat → List Nat) : Prop where
  aligned : ∀ region ∈ regions,
    region.start % gcBlockSize = 0 ∧ region.stop % gcBlockSize = 0
  bounds : ∀ region ∈ regions,
    0 < region.start ∧ region.start < region.stop ∧ region.stop < 2 ^ 32
  ascending : regions.Pairwise fun region next => region.stop ≤ next.start
  tiled : ∀ region ∈ regions, ∀ block ∈ region.blocks,
    region.blockUsed (region.blockPos block) = true →
      BlockTiled memory block (layout block)

def SmallRegion.survivors (region : SmallRegion) (memory : Memory)
    (layout : Nat → List Nat) (block : Nat) : List Nat :=
  if region.blockUsed (region.blockPos block) then
    (layout block).filter fun head => hasFlag (memory head) .mark
  else
    []

theorem SmallRegion.blocks_tiled (region : SmallRegion)
    (start_mod : region.start % gcBlockSize = 0)
    (stop_mod : region.stop % gcBlockSize = 0) (le : region.start ≤ region.stop) :
    Tiles (fun _ => gcBlockSize) region.start region.blocks region.stop := by
  have counted : ∀ count first, Tiles (fun _ => gcBlockSize) first
      ((List.range count).map fun pos => first + pos * gcBlockSize)
      (first + count * gcBlockSize) := by
    intro count
    induction count with
    | zero => simp
    | succ count ih =>
        intro first
        rw [List.range_succ, List.map_append, Tiles.append_iff]
        refine ⟨_, ih first, ?_⟩
        refine ⟨rfl, (by decide : 0 < gcBlockSize), ?_⟩
        show first + count * gcBlockSize + gcBlockSize = first + (count + 1) * gcBlockSize
        rw [Nat.add_mul, Nat.one_mul, Nat.add_assoc]
  have stop : region.start +
      (region.stop - region.start + (gcBlockSize - 1)) / gcBlockSize * gcBlockSize =
        region.stop := by
    unfold gcBlockSize at *
    omega
  have tiled := counted
    ((region.stop - region.start + (gcBlockSize - 1)) / gcBlockSize) region.start
  rwa [stop] at tiled

section

variable {memory : Memory} {harvest : Harvest} {sweeper : Sweeper}

theorem headerSize_mod (memory : Memory) (head : Nat) : headerSize memory head % 8 = 0 := by
  rw [headerSize, maskSize_eq]
  omega

theorem sweepChunks_spec {bound fuel head slack slackSize : Nat} {headers : List Nat}
    (tiled : Tiles (headerSize memory) head headers bound)
    (enough : headers.length < fuel)
    (slack_end : slack + slackSize = head) (slack_mod : slack % 8 = 4)
    (head_mod : head % 8 = 4) (short : bound < slack + gcBlockSize)
    (built : Built memory harvest sweeper) (clear : harvest.Clear slack bound) :
    ∃ swept,
      sweepChunks bound fuel head slack slackSize sweeper =
        some (Harvest.tailStart (headerSize memory) slack
            (headers.filter fun head => hasFlag (memory head) .mark),
          bound - Harvest.tailStart (headerSize memory) slack
            (headers.filter fun head => hasFlag (memory head) .mark), swept) ∧
      Built memory (harvest ++ Harvest.between (headerSize memory) slack
        (headers.filter fun head => hasFlag (memory head) .mark)) swept := by
  induction headers generalizing fuel head slack slackSize harvest sweeper with
  | nil =>
      obtain rfl : head = bound := tiled
      obtain ⟨fuel, rfl⟩ : ∃ n, fuel = n + 1 := ⟨fuel - 1, by simp at enough; omega⟩
      refine ⟨sweeper, ?_, by simpa [Harvest.between] using built⟩
      rw [sweepChunks, if_neg (Nat.lt_irrefl _)]
      simp only [List.filter_nil, Harvest.tailStart]
      rw [← slack_end, Nat.add_sub_cancel_left]
  | cons tile rest ih =>
      obtain ⟨rfl, positive, after⟩ := tiled
      obtain ⟨fuel, rfl⟩ : ∃ n, fuel = n + 1 := ⟨fuel - 1, by simp at enough; omega⟩
      have rest_le := after.le
      have size_mod := headerSize_mod memory tile
      have size_eq : headerSize sweeper.memory tile = headerSize memory tile := by
        rw [headerSize, headerSize, built.read (clear.mono (by omega) (by omega))]
      have mark_eq : sweeper.memory tile = memory tile :=
        built.read (clear.mono (by omega) (by omega))
      rw [sweepChunks, if_pos (by omega)]
      dsimp only
      rw [size_eq, mark_eq, List.filter_cons]
      have enough : rest.length < fuel := Nat.lt_of_succ_lt_succ enough
      cases marked : hasFlag (memory tile) .mark with
      | false =>
          simp only [Bool.false_eq_true, if_false]
          exact ih after enough (by omega) slack_mod (by omega) short built clear
      | true =>
          simp only [if_true]
          have freed : Built memory (harvest ++ .gap slack tile)
              (freeChunkPart sweeper (slack, tile)) :=
            built.freeChunkPart slack_mod head_mod (by omega)
              (clear.mono (Nat.le_refl _) (by omega))
          have sameFree : (if 0 < slackSize then insertFreechunk sweeper slack slackSize
              else sweeper) = freeChunkPart sweeper (slack, tile) := by
            subst slack_end
            simp [freeChunkPart]
          have unmarked : Built memory (harvest ++ .gap slack tile ++ .head tile)
              (unmark (freeChunkPart sweeper (slack, tile)) tile) :=
            freed.unmark ((clear.mono (by omega) (by omega)).append
              (Harvest.within_gap.clear_above (Nat.le_refl _)))
          obtain ⟨swept, run, final⟩ := ih after enough (Nat.add_zero _)
            (by omega) (by omega) (by omega) unmarked
            (((clear.mono (by omega) (by omega)).append
              (Harvest.within_gap.clear_above (by omega))).append
                ((Harvest.within_head tile).clear_above (by omega)))
          refine ⟨swept, ?_, ?_⟩
          · rw [sameFree]
            exact run
          · rw [Harvest.between, ← Harvest.append_assoc, ← Harvest.append_assoc]
            exact final

structure InBlock (memory : Memory) (block : Nat) (heads : List Nat) : Prop where
  spaced : Spaced (headerSize memory) (firstHeader block) heads (blockBound block)
  aligned : ∀ head ∈ heads, head % 8 = 4

theorem InBlock.large {block : Nat} {heads : List Nat} (inBlock : InBlock memory block heads) :
    ∀ head ∈ heads, 8 ≤ headerSize memory head := by
  intro head member
  have := (inBlock.spaced.mem_bounds member).2.1
  have := headerSize_mod memory head
  omega

theorem InBlock.tail_mod {block : Nat} {heads : List Nat}
    (inBlock : InBlock memory block heads) (first_mod : firstHeader block % 8 = 4) :
    Harvest.tailStart (headerSize memory) (firstHeader block) heads % 8 = 4 := by
  apply Harvest.tailStart_mod _ first_mod
  intro head member
  have := inBlock.aligned head member
  have := headerSize_mod memory head
  omega

theorem InBlock.tail_after {block : Nat} {heads : List Nat}
    (inBlock : InBlock memory block heads) (live : heads ≠ []) :
    firstHeader block <
      Harvest.tailStart (headerSize memory) (firstHeader block) heads := by
  cases heads with
  | nil => exact absurd rfl live
  | cons head rest =>
      obtain ⟨before, positive, after⟩ := inBlock.spaced
      have := (Harvest.tailStart_bounds after).1
      unfold Harvest.tailStart
      omega

variable {region : SmallRegion} {layout : Nat → List Nat}

theorem firstHeader_mod {block : Nat} (block_mod : block % gcBlockSize = 0) :
    firstHeader block % 8 = 4 := by
  unfold firstHeader gcBlockSize memAlign gcHead at *
  omega

theorem SmallRegion.survivors_inBlock {block : Nat}
    (tiled : region.blockUsed (region.blockPos block) = true →
      BlockTiled memory block (layout block))
    (block_mod : block % gcBlockSize = 0) :
    InBlock memory block (region.survivors memory layout block) := by
  unfold SmallRegion.survivors
  split
  · rename_i used
    refine ⟨(Tiles.spaced (tiled used)).filter _, ?_⟩
    intro head member
    rw [Tiles.mod_eq (tiled used) (headerSize_mod memory) (List.mem_filter.mp member).1]
    exact firstHeader_mod block_mod
  · refine ⟨?_, by simp⟩
    show firstHeader block ≤ blockBound block
    unfold firstHeader blockBound gcBlockSize memAlign gcHead
    omega

theorem sweepChunks_block {block : Nat} {headers : List Nat}
    (tiled : BlockTiled memory block headers) (block_mod : block % gcBlockSize = 0)
    (built : Built memory harvest sweeper)
    (clear : harvest.Clear block (block + gcBlockSize)) :
    ∃ swept,
      sweepChunks (blockBound block) gcBlockSize (firstHeader block)
          (firstHeader block) 0 sweeper =
        some (Harvest.tailStart (headerSize memory) (firstHeader block)
            (headers.filter fun head => hasFlag (memory head) .mark),
          blockBound block - Harvest.tailStart (headerSize memory) (firstHeader block)
            (headers.filter fun head => hasFlag (memory head) .mark), swept) ∧
      Built memory (harvest ++ Harvest.between (headerSize memory) (firstHeader block)
        (headers.filter fun head => hasFlag (memory head) .mark)) swept := by
  have room := tiled.length_le
  apply sweepChunks_spec tiled _ (Nat.add_zero _) _ _ _ built _
  all_goals unfold firstHeader blockBound gcBlockSize memAlign gcHead at *
  · omega
  · omega
  · omega
  · omega
  · exact clear.mono (by omega) (by omega)

theorem sweepBlock_free {block : Nat} (slack : BlockSlack)
    (tiled : region.blockUsed (region.blockPos block) = true →
      BlockTiled memory block (layout block))
    (block_mod : block % gcBlockSize = 0)
    (free : region.survivors memory layout block = [])
    (built : Built memory harvest sweeper)
    (clear : harvest.Clear block (block + gcBlockSize)) :
    ∃ swept,
      sweepBlock region (slack, sweeper) block =
        some (⟨slack.start, slack.size + gcBlockSize⟩, swept) ∧
      Built memory harvest swept := by
  cases used : region.blockUsed (region.blockPos block) with
  | false => exact ⟨sweeper, by simp [sweepBlock, used], built⟩
  | true =>
      have survivors_eq : (layout block).filter (fun head => hasFlag (memory head) .mark) =
          [] := by
        simpa [SmallRegion.survivors, used] using free
      obtain ⟨swept, walked, kept⟩ :=
        sweepChunks_block (tiled used) block_mod built clear
      rw [survivors_eq] at walked kept
      have room : 0 < blockBound block - firstHeader block := by
        unfold firstHeader blockBound gcBlockSize memAlign gcHead
        omega
      refine ⟨swept, ?_, by simpa [Harvest.between] using kept⟩
      simp [sweepBlock, used, walked, Harvest.tailStart, room]

/-- A block with survivors ends the free blocks in front of it. -/
theorem sweepBlock_live {block : Nat} {slack : BlockSlack}
    (tiled : region.blockUsed (region.blockPos block) = true →
      BlockTiled memory block (layout block))
    (block_mod : block % gcBlockSize = 0) (slack_mod : slack.start % gcBlockSize = 0)
    (positive : 0 < slack.start) (slack_end : slack.start + slack.size = block)
    (live : region.survivors memory layout block ≠ [])
    (built : Built memory harvest sweeper)
    (clear : harvest.Clear slack.start (block + gcBlockSize)) :
    ∃ swept,
      sweepBlock region (slack, sweeper) block =
        some (⟨block + gcBlockSize, 0⟩, swept) ∧
      Built memory
        (harvest ++ (Harvest.ofBlock (headerSize memory) block
          (region.survivors memory layout block) ++ .run slack.start block)) swept := by
  have inBlock := SmallRegion.survivors_inBlock tiled block_mod
  have used : region.blockUsed (region.blockPos block) = true := by
    by_contra unused
    exact live (by simp [SmallRegion.survivors, unused])
  have survivors_eq : region.survivors memory layout block =
      (layout block).filter fun head => hasFlag (memory head) .mark := by
    simp [SmallRegion.survivors, used]
  obtain ⟨swept, walked, kept⟩ := sweepChunks_block (tiled used) block_mod built
    (clear.mono (by omega) (Nat.le_refl _))
  rw [← survivors_eq] at walked kept
  have tail_mod := inBlock.tail_mod (firstHeader_mod block_mod)
  have within := Harvest.within_between inBlock.spaced inBlock.large
  have bounds := Harvest.tailStart_bounds inBlock.spaced
  have afterFirst := inBlock.tail_after live
  have blockEnd : blockBound block % 8 = 4 ∧ block ≤ firstHeader block ∧
      blockBound block ≤ block + gcBlockSize ∧
      blockBound block < firstHeader block + gcBlockSize := by
    unfold blockBound firstHeader gcBlockSize gcHead memAlign at *
    omega
  rw [Harvest.ofBlock, ← Harvest.append_assoc, ← Harvest.append_assoc]
  generalize Harvest.tailStart (headerSize memory) (firstHeader block)
    (region.survivors memory layout block) = tail at *
  have freed : Built memory (harvest ++ Harvest.between (headerSize memory)
      (firstHeader block) (region.survivors memory layout block) ++
        .gap tail (blockBound block)) (freeChunkPart swept (tail, blockBound block)) :=
    kept.freeChunkPart tail_mod blockEnd.1 (by omega)
      ((clear.mono (by omega) (by omega)).append (within.clear_above (Nat.le_refl _)))
  refine ⟨freeBlockPart (freeChunkPart swept (tail, blockBound block)) (slack.start, block),
    ?_, ?_⟩
  · have notFree : tail ≠ firstHeader block := by omega
    have slackSize : block - slack.start = slack.size := by omega
    have slackFree : slack.start < block ↔ 0 < slack.size := by omega
    simp [sweepBlock, used, walked, notFree, freeChunkPart, freeBlockPart, freeSlackBlock,
      slackSize, slackFree]
  · apply freed.freeBlockPart slack_mod block_mod positive
    refine ((clear.mono (Nat.le_refl _) (by omega)).append
      (within.clear_below blockEnd.2.1)).append (Harvest.within_gap.clear_below (by omega))

/-- The blocks of a region from `block` on, when those from `slack.start` on are free. -/
theorem sweepBlocks_spec {blocks : List Nat} {block stop : Nat} (slack : BlockSlack)
    (blocksTiled : Tiles (fun _ => gcBlockSize) block blocks stop)
    (tiled : ∀ block ∈ blocks, region.blockUsed (region.blockPos block) = true →
      BlockTiled memory block (layout block))
    (block_mod : block % gcBlockSize = 0) (slack_mod : slack.start % gcBlockSize = 0)
    (positive : 0 < slack.start) (slack_end : slack.start + slack.size = block)
    (built : Built memory harvest sweeper) (clear : harvest.Clear slack.start stop) :
    ∃ slack' swept,
      blocks.foldlM (sweepBlock region) (slack, sweeper) = some (slack', swept) ∧
      Built memory (harvest ++ Harvest.ofRegion (headerSize memory)
        (region.survivors memory layout) slack.start blocks stop)
          (freeSlackBlock swept slack') := by
  induction blocks generalizing block slack harvest sweeper with
  | nil =>
      obtain rfl : block = stop := blocksTiled
      refine ⟨slack, sweeper, rfl, ?_⟩
      have freed := built.freeBlockPart slack_mod block_mod positive clear
      have same : freeBlockPart sweeper (slack.start, block) =
          freeSlackBlock sweeper slack := by
        subst slack_end
        simp [freeBlockPart, freeSlackBlock]
      rw [same] at freed
      exact freed
  | cons current rest ih =>
      obtain ⟨rfl, _, after⟩ := blocksTiled
      have stop_le := after.le
      have tiledRest := fun block member => tiled block (List.mem_cons_of_mem _ member)
      have tiledHere := tiled current (by simp)
      have next_mod : (current + gcBlockSize) % gcBlockSize = 0 := by
        rw [Nat.add_mod_right]
        exact block_mod
      rw [List.foldlM_cons, Harvest.ofRegion]
      split
      · rename_i free
        obtain ⟨swept, step, kept⟩ := sweepBlock_free slack tiledHere block_mod
          free built (clear.mono (by omega) (by omega))
        rw [step]
        exact ih ⟨slack.start, slack.size + gcBlockSize⟩ after tiledRest next_mod slack_mod
          positive (by dsimp only; omega) kept clear
      · rename_i live
        obtain ⟨swept, step, kept⟩ := sweepBlock_live tiledHere block_mod slack_mod positive
          slack_end live built (clear.mono (Nat.le_refl _) (by omega))
        have inBlock := SmallRegion.survivors_inBlock tiledHere block_mod
        rw [step, ← Harvest.append_assoc]
        apply ih ⟨current + gcBlockSize, 0⟩ after tiledRest next_mod next_mod
          (by dsimp only; omega) (Nat.add_zero _) kept
        refine (clear.mono (by dsimp only; omega) (Nat.le_refl _)).append
          (Harvest.Clear.append ?_ ?_)
        · exact (Harvest.within_ofBlock inBlock.spaced inBlock.large).clear_above
            (Nat.le_refl _)
        · exact Harvest.within_run.clear_above (by dsimp only; omega)

variable {regions : List SmallRegion}

theorem AreaTiled.tail (area : AreaTiled (region :: regions) memory layout) :
    AreaTiled regions memory layout where
  aligned := fun other member => area.aligned other (List.mem_cons_of_mem _ member)
  bounds := fun other member => area.bounds other (List.mem_cons_of_mem _ member)
  ascending := (List.pairwise_cons.mp area.ascending).2
  tiled := fun other member => area.tiled other (List.mem_cons_of_mem _ member)

theorem AreaTiled.blocks_tiled (area : AreaTiled regions memory layout)
    (member : region ∈ regions) :
    Tiles (fun _ => gcBlockSize) region.start region.blocks region.stop :=
  region.blocks_tiled (area.aligned region member).1 (area.aligned region member).2
    (Nat.le_of_lt (area.bounds region member).2.1)

theorem AreaTiled.block_mod (area : AreaTiled regions memory layout)
    (member : region ∈ regions) {block : Nat} (inRegion : block ∈ region.blocks) :
    block % gcBlockSize = 0 := by
  obtain ⟨pos, _, rfl⟩ := List.mem_map.mp inRegion
  rw [Nat.add_mul_mod_self_right]
  exact (area.aligned region member).1

theorem AreaTiled.survivors_inBlock (area : AreaTiled regions memory layout)
    (member : region ∈ regions) {block : Nat} (inRegion : block ∈ region.blocks) :
    InBlock memory block (region.survivors memory layout block) :=
  SmallRegion.survivors_inBlock (area.tiled region member block inRegion)
    (area.block_mod member inRegion)

def Harvest.ofArea (memory : Memory) (layout : Nat → List Nat) :
    List SmallRegion → Harvest
  | [] => .empty
  | region :: rest =>
      ofRegion (headerSize memory) (region.survivors memory layout) region.start
        region.blocks region.stop ++ ofArea memory layout rest

theorem AreaTiled.within_ofRegion (area : AreaTiled regions memory layout)
    (member : region ∈ regions) :
    (Harvest.ofRegion (headerSize memory) (region.survivors memory layout) region.start
      region.blocks region.stop).Within region.start region.stop :=
  Harvest.within_ofRegion (area.blocks_tiled member) (Nat.le_refl _)
    (fun _ inRegion _ => (area.survivors_inBlock member inRegion).spaced)
    (fun _ inRegion => (area.survivors_inBlock member inRegion).large)

theorem AreaTiled.clear_tail (area : AreaTiled (region :: regions) memory layout)
    (clear : ∀ other ∈ region :: regions, harvest.Clear other.start other.stop) :
    ∀ other ∈ regions, (harvest ++ Harvest.ofRegion (headerSize memory)
      (region.survivors memory layout) region.start region.blocks region.stop).Clear
        other.start other.stop := by
  intro other member
  apply (clear other (List.mem_cons_of_mem _ member)).append
  apply (area.within_ofRegion (by simp)).clear_above
  exact (List.pairwise_cons.mp area.ascending).1 other member

theorem sweepRegionNormal_spec (area : AreaTiled regions memory layout)
    (member : region ∈ regions) (built : Built memory harvest sweeper)
    (clear : harvest.Clear region.start region.stop) :
    ∃ swept, sweepRegionNormal sweeper region = some swept ∧
      Built memory (harvest ++ Harvest.ofRegion (headerSize memory)
        (region.survivors memory layout) region.start region.blocks region.stop) swept := by
  obtain ⟨slack, swept, run, kept⟩ := sweepBlocks_spec ⟨region.start, 0⟩
    (area.blocks_tiled member) (area.tiled region member) (area.aligned region member).1
    (area.aligned region member).1 (area.bounds region member).1 (Nat.add_zero _) built clear
  exact ⟨freeSlackBlock swept slack, by simp [sweepRegionNormal, run], kept⟩

theorem sweepRegionsNormal_spec (area : AreaTiled regions memory layout)
    (built : Built memory harvest sweeper)
    (clear : ∀ region ∈ regions, harvest.Clear region.start region.stop) :
    ∃ swept, regions.foldlM sweepRegionNormal sweeper = some swept ∧
      Built memory (harvest ++ Harvest.ofArea memory layout regions) swept := by
  induction regions generalizing harvest sweeper with
  | nil => exact ⟨sweeper, rfl, by simpa [Harvest.ofArea] using built⟩
  | cons region rest ih =>
      obtain ⟨next, step, kept⟩ := sweepRegionNormal_spec area (by simp) built
        (clear region (by simp))
      obtain ⟨swept, run, final⟩ := ih area.tail kept (area.clear_tail clear)
      refine ⟨swept, ?_, ?_⟩
      · rw [List.foldlM_cons, step]
        exact run
      · rw [Harvest.ofArea, ← Harvest.append_assoc]
        exact final

theorem sweepSmallNormal_kept (area : AreaTiled regions memory layout) :
    ∃ swept, sweepSmallNormal regions memory = some swept ∧
      Kept memory (Harvest.ofArea memory layout regions) swept := by
  obtain ⟨swept, run, kept⟩ := sweepRegionsNormal_spec area (initFreeindex_built memory)
    (by simp [Harvest.Clear, Harvest.spans])
  have kept : Built memory (Harvest.ofArea memory layout regions) swept := by
    rw [← Harvest.empty_append (Harvest.ofArea memory layout regions)]
    exact kept
  exact ⟨_, by simp [sweepSmallNormal, run], mergeFreeindex_kept kept⟩

end

end LaTTe.Gc
