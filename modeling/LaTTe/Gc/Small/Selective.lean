import LaTTe.Gc.Small.Normal

namespace LaTTe.Gc

open LaTTe.Data

/-! Selective sweeping collects the same free memory as traditional sweeping. -/

namespace Harvest

@[ext] theorem ext {left right : Harvest} (chunks : left.chunks = right.chunks)
    (blocks : left.blocks = right.blocks) (unmarked : left.unmarked = right.unmarked) :
    left = right := by
  cases left
  cases right
  simp_all

@[simp] theorem gap_blocks (lo hi : Nat) : (gap lo hi).blocks = [] := by
  unfold gap
  split <;> rfl

@[simp] theorem gap_unmarked (lo hi : Nat) : (gap lo hi).unmarked = [] := by
  unfold gap
  split <;> rfl

@[simp] theorem run_chunks (lo hi : Nat) : (run lo hi).chunks = [] := by
  unfold run
  split <;> rfl

@[simp] theorem run_unmarked (lo hi : Nat) : (run lo hi).unmarked = [] := by
  unfold run
  split <;> rfl

@[simp] theorem head_chunks (address : Nat) : (head address).chunks = [] := rfl

@[simp] theorem head_blocks (address : Nat) : (head address).blocks = [] := rfl

@[simp] theorem head_unmarked (address : Nat) : (head address).unmarked = [address] := rfl

@[simp] theorem between_blocks (size : Nat → Nat) (lo : Nat) (heads : List Nat) :
    (between size lo heads).blocks = [] := by
  induction heads generalizing lo with
  | nil => rfl
  | cons first rest ih => simp [between, ih]

end Harvest

theorem freeChunkPart_empty (sweeper : Sweeper) {lo hi : Nat} (le : hi ≤ lo) :
    freeChunkPart sweeper (lo, hi) = sweeper :=
  if_neg (Nat.not_lt.mpr le)

theorem freeBlockPart_empty (sweeper : Sweeper) {lo hi : Nat} (le : hi ≤ lo) :
    freeBlockPart sweeper (lo, hi) = sweeper :=
  if_neg (Nat.not_lt.mpr le)

theorem freeBlockPart_middlePart (sweeper : Sweeper) {start stop cursor down : Nat}
    (begins : (if start % gcBlockSize ≠ 0 then roundUpBlockSize start else start) = cursor)
    (ends : roundDownBlockSize stop = down) :
    freeBlockPart sweeper (middlePart start stop) = freeBlockPart sweeper (cursor, down) := by
  simp only [middlePart, begins, ends]
  split
  · rfl
  · rename_i empty
    rw [freeBlockPart_empty _ (Nat.le_refl _), freeBlockPart_empty _ (Nat.not_lt.mp empty)]

theorem freeChunkPart_lastPart (sweeper : Sweeper) {start stop cursor down : Nat}
    (begins : (if start % gcBlockSize ≠ 0 then roundUpBlockSize start else start) = cursor)
    (ends : roundDownBlockSize stop = down) :
    freeChunkPart sweeper (lastPart start stop) =
      freeChunkPart sweeper (max cursor down + gcHead, stop) := by
  have furthest : (if cursor < down then down else cursor) = max cursor down := by
    split <;> omega
  simp only [lastPart, begins, ends, furthest]
  split
  · rfl
  · rename_i empty
    rw [freeChunkPart_empty _ (Nat.le_refl _), freeChunkPart_empty _ (by omega)]

theorem insertFreemem_inside (sweeper : Sweeper) {block lo hi : Nat}
    (block_mod : block % gcBlockSize = 0) (afterFirst : firstHeader block < lo)
    (lt : lo < hi) (beforeBound : hi < blockBound block) :
    insertFreemem sweeper lo hi = freeChunkPart sweeper (lo, hi) := by
  unfold firstHeader blockBound gcBlockSize memAlign gcHead at *
  have keepLo : toBoundary lo = lo := by
    unfold toBoundary gcBlockSize memAlign gcHead
    rw [if_neg (by omega), if_neg (by omega)]
  have keepHi : toBoundary hi = hi := by
    unfold toBoundary gcBlockSize memAlign gcHead
    rw [if_neg (by omega), if_neg (by omega)]
  have first : firstPart lo hi = (lo, hi) := by
    unfold firstPart roundUpBlockSize gcBlockSize gcHead
    rw [if_pos (by omega), if_pos (by omega)]
  have begins : (if lo % gcBlockSize ≠ 0 then roundUpBlockSize lo else lo) =
      block + 4096 := by
    unfold roundUpBlockSize gcBlockSize
    rw [if_pos (by omega)]
    omega
  have ends : roundDownBlockSize hi = block := by
    unfold roundDownBlockSize gcBlockSize
    omega
  unfold insertFreemem
  simp only [keepLo, keepHi]
  rw [if_neg (by omega), first, freeBlockPart_middlePart _ begins ends,
    freeChunkPart_lastPart _ begins ends, freeBlockPart_empty _ (by omega),
    freeChunkPart_empty _ (by unfold gcHead; omega)]

/-- Free memory from `lo` to the next block boundary, or from the boundary on. -/
def Pending (lo boundary : Nat) : Prop :=
  lo = firstHeader boundary ∨
    lo % 8 = 4 ∧ lo + gcHead ≤ boundary ∧ boundary < lo + blockBound 0

/-- Free memory that reaches over a block boundary. -/
theorem insertFreemem_across (sweeper : Sweeper) {lo hi boundary block : Nat}
    (pending : Pending lo boundary) (boundary_mod : boundary % gcBlockSize = 0)
    (positive : 0 < boundary)
    (block_mod : block % gcBlockSize = 0) (le : boundary ≤ block) (hi_mod : hi % 8 = 4)
    (hi_lower : block ≤ hi + gcHead) (hi_upper : hi < blockBound block) :
    insertFreemem sweeper lo hi =
      freeChunkPart (freeBlockPart (freeChunkPart sweeper (lo, boundary - gcHead))
        (boundary, block)) (firstHeader block, hi) := by
  unfold Pending firstHeader blockBound gcBlockSize memAlign gcHead at *
  -- both ends have been moved to a boundary or stay where they are
  have start : toBoundary lo = lo ∧ lo % 4096 ≠ 0 ∧ lo + 4 < boundary ∨
      toBoundary lo = boundary ∧ boundary ≤ lo + 4 := by
    unfold toBoundary gcBlockSize memAlign gcHead
    split
    · omega
    · split <;> omega
  have stop : toBoundary hi = hi ∧ block < hi ∨ toBoundary hi = block ∧ hi ≤ block + 4 := by
    unfold toBoundary gcBlockSize memAlign gcHead
    split
    · omega
    · split <;> omega
  have ends : roundDownBlockSize (toBoundary hi) = block := by
    unfold roundDownBlockSize gcBlockSize
    omega
  have begins : (if toBoundary lo % gcBlockSize ≠ 0 then roundUpBlockSize (toBoundary lo)
      else toBoundary lo) = boundary := by
    unfold roundUpBlockSize gcBlockSize
    rcases start with ⟨kept, inside, _⟩ | ⟨moved, _⟩
    · rw [kept, if_pos inside]
      omega
    · rw [moved, if_neg (by omega)]
  have first : freeChunkPart sweeper (firstPart (toBoundary lo) (toBoundary hi)) =
      freeChunkPart sweeper (lo, boundary - 4) := by
    unfold firstPart roundUpBlockSize gcBlockSize gcHead
    rcases start with ⟨kept, inside, _⟩ | ⟨moved, _⟩
    · rw [kept, if_pos inside, if_neg (by omega)]
      congr 2
      omega
    · rw [moved, if_neg (by omega), freeChunkPart_empty _ (Nat.le_refl _),
        freeChunkPart_empty _ (by omega)]
  have last : ∀ sweeper, freeChunkPart sweeper (block + 4, toBoundary hi) =
      freeChunkPart sweeper (block + 4, hi) := by
    intro sweeper
    rcases stop with ⟨kept, _⟩ | ⟨moved, _⟩
    · rw [kept]
    · rw [moved, freeChunkPart_empty _ (by omega), freeChunkPart_empty _ (by omega)]
  unfold insertFreemem
  simp only []
  split
  · rename_i same
    rw [freeChunkPart_empty _ (by omega), freeBlockPart_empty _ (by omega),
      freeChunkPart_empty _ (by omega)]
  · rw [first, freeBlockPart_middlePart _ begins ends, freeChunkPart_lastPart _ begins ends,
      Nat.max_eq_right le]
    exact last _

section

variable {memory : Memory} {harvest : Harvest} {sweeper : Sweeper}

theorem Built.freeAcross (built : Built memory harvest sweeper) {lo hi boundary block : Nat}
    (pending : Pending lo boundary) (boundary_mod : boundary % gcBlockSize = 0)
    (positive : 0 < boundary)
    (block_mod : block % gcBlockSize = 0) (le : boundary ≤ block) (hi_mod : hi % 8 = 4)
    (hi_lower : block ≤ hi + gcHead) (hi_upper : hi < blockBound block)
    (clear : harvest.Clear (min lo boundary) (max block hi)) :
    Built memory (harvest ++ (.gap lo (boundary - gcHead) ++ .run boundary block ++
        .gap (firstHeader block) hi))
      (if lo < hi then insertFreemem sweeper lo hi else sweeper) := by
  have parts : (if lo < hi then insertFreemem sweeper lo hi else sweeper) =
      Gc.freeChunkPart (Gc.freeBlockPart (Gc.freeChunkPart sweeper (lo, boundary - gcHead))
        (boundary, block)) (firstHeader block, hi) := by
    split
    · exact insertFreemem_across sweeper pending boundary_mod positive block_mod le hi_mod
        hi_lower hi_upper
    · unfold Pending firstHeader blockBound gcBlockSize memAlign gcHead at *
      rw [freeChunkPart_empty _ (by omega), freeBlockPart_empty _ (by omega),
        freeChunkPart_empty _ (by omega)]
  have front : Built memory (harvest ++ .gap lo (boundary - gcHead))
      (Gc.freeChunkPart sweeper (lo, boundary - gcHead)) := by
    rcases pending with rfl | pending
    · unfold firstHeader gcBlockSize memAlign gcHead at *
      rw [Harvest.gap, if_neg (by omega), freeChunkPart_empty _ (by omega)]
      simpa using built
    · unfold blockBound gcBlockSize gcHead at *
      exact built.freeChunkPart pending.1 (by omega) (by unfold gcBlockSize; omega)
        (clear.mono (by omega) (by omega))
  have middle := front.freeBlockPart boundary_mod block_mod positive
    ((clear.mono (by omega) (by omega)).append (Harvest.within_gap.clear_above (by omega)))
  have last := middle.freeChunkPart (firstHeader_mod block_mod) hi_mod
    (by unfold firstHeader blockBound gcBlockSize memAlign gcHead at *; omega)
    (((clear.mono (by unfold firstHeader; omega) (by omega)).append
      (Harvest.within_gap.clear_above (by unfold firstHeader; omega))).append
        (Harvest.within_run.clear_above (by unfold firstHeader; omega)))
  rw [parts, ← Harvest.append_assoc, ← Harvest.append_assoc]
  exact last

theorem Built.size_unmarked (built : Built memory harvest sweeper) {head : Nat}
    (member : head ∈ harvest.unmarked) :
    size sweeper.memory (head + gcHead) = headerSize memory head := by
  rw [size, header_add, built.cleared head member, maskSize_clearFlag, headerSize]

/-- The objects of a block behind the first one. -/
theorem sweepObjects_inBlock {block stop object : Nat} {heads : List Nat}
    (block_mod : block % gcBlockSize = 0) (stop_le : block + gcBlockSize ≤ stop)
    (spaced : Spaced (headerSize memory) (object + headerSize memory object) heads
      (blockBound block))
    (aligned : ∀ head ∈ object :: heads, head % 8 = 4)
    (inBlock : firstHeader block ≤ object) (large : 0 < headerSize memory object)
    (member : object ∈ harvest.unmarked) (built : Built memory harvest sweeper)
    (clear : harvest.Clear (object + headerSize memory object) stop) :
    ∃ last swept,
      (∀ more, sweepObjects stop (object + gcHead) (heads.map (· + gcHead) ++ more) sweeper =
        sweepObjects stop (last + gcHead) more swept) ∧
      last ∈ object :: heads ∧
      last + headerSize memory last =
        Harvest.tailStart (headerSize memory) (object + headerSize memory object) heads ∧
      last ∈ (harvest ++ Harvest.between (headerSize memory)
        (object + headerSize memory object) heads).unmarked ∧
      Built memory (harvest ++ Harvest.between (headerSize memory)
        (object + headerSize memory object) heads) swept := by
  induction heads generalizing object harvest sweeper with
  | nil =>
      refine ⟨object, sweeper, fun _ => rfl, by simp, rfl, ?_, ?_⟩
      · simpa [Harvest.between] using member
      · simpa [Harvest.between] using built
  | cons head rest ih =>
      obtain ⟨before, positive, after⟩ := spaced
      have rest_le := after.le
      have object_mod := aligned object (by simp)
      have head_mod := aligned head (by simp)
      have size_mod := headerSize_mod memory object
      have head_size_mod := headerSize_mod memory head
      have bound_le : blockBound block + gcHead ≤ stop := by
        unfold blockBound gcBlockSize gcHead at *
        omega
      have unmarked : Built memory (harvest ++ .head head) (unmark sweeper head) :=
        built.unmark (clear.mono before (by unfold gcHead at *; omega))
      have objectSize : size (unmark sweeper head).memory (object + gcHead) =
          headerSize memory object :=
        unmarked.size_unmarked (by simp [member])
      have freed : Built memory (harvest ++ .head head ++
          .gap (object + headerSize memory object) head)
          (if object + headerSize memory object < head then
            insertFreemem (unmark sweeper head) (object + headerSize memory object) head
          else unmark sweeper head) := by
        have part : Built memory (harvest ++ .head head ++
            .gap (object + headerSize memory object) head)
            (freeChunkPart (unmark sweeper head)
              (object + headerSize memory object, head)) :=
          unmarked.freeChunkPart (by omega) head_mod
          (by unfold firstHeader blockBound gcBlockSize memAlign gcHead at *; omega)
          ((clear.mono (Nat.le_refl _) (by unfold gcHead at *; omega)).append
            ((Harvest.within_head head).clear_below (Nat.le_refl _)))
        split
        · rename_i lt
          rw [insertFreemem_inside _ block_mod (by omega) lt (by omega)]
          exact part
        · rename_i notLt
          rwa [freeChunkPart_empty _ (by omega)] at part
      have reordered : harvest ++ .head head ++
          .gap (object + headerSize memory object) head =
            harvest ++ .gap (object + headerSize memory object) head ++ .head head := by
        ext1 <;> simp
      rw [reordered] at freed
      obtain ⟨last, swept, run, lastIn, lastEnd, lastMember, final⟩ := ih after
        (fun other inRest => aligned other (List.mem_cons_of_mem _ inRest))
        (by omega) positive (by simp) freed
        (((clear.mono (by omega) (Nat.le_refl _)).append
          (Harvest.within_gap.clear_above (by omega))).append
            ((Harvest.within_head head).clear_above (by omega)))
      have whole : harvest ++ Harvest.between (headerSize memory)
          (object + headerSize memory object) (head :: rest) =
            harvest ++ .gap (object + headerSize memory object) head ++ .head head ++
              Harvest.between (headerSize memory) (head + headerSize memory head) rest := by
        rw [Harvest.between, ← Harvest.append_assoc, ← Harvest.append_assoc]
      refine ⟨last, swept, ?_, List.mem_cons_of_mem _ lastIn, lastEnd, ?_, ?_⟩
      · intro more
        rw [List.map_cons, List.cons_append, sweepObjects, if_pos (by omega)]
        simp only [header_add, objectSize]
        exact run more
      · rw [whole]
        exact lastMember
      · rw [whole]
        exact final

theorem InBlock.pending {block : Nat} {heads : List Nat}
    (inBlock : InBlock memory block heads) (block_mod : block % gcBlockSize = 0)
    (live : heads ≠ []) :
    Pending (Harvest.tailStart (headerSize memory) (firstHeader block) heads)
      (block + gcBlockSize) := by
  have tail_mod := inBlock.tail_mod (firstHeader_mod block_mod)
  have bounds := Harvest.tailStart_bounds inBlock.spaced
  have after := inBlock.tail_after live
  refine .inr ⟨tail_mod, ?_, ?_⟩
  all_goals
    unfold firstHeader blockBound gcBlockSize memAlign gcHead at *
    omega

/-- The objects of a block, from the free memory in front of the first one. -/
theorem sweepObjects_block {lo boundary block stop head : Nat} {rest : List Nat}
    (pending : Pending lo boundary) (boundary_mod : boundary % gcBlockSize = 0)
    (positive : 0 < boundary) (block_mod : block % gcBlockSize = 0)
    (le : boundary ≤ block) (stop_le : block + gcBlockSize ≤ stop)
    (inBlock : InBlock memory block (head :: rest)) (built : Built memory harvest sweeper)
    (clear : harvest.Clear (min lo boundary) stop) :
    ∃ last swept,
      (∀ more, sweepObjects stop (head + gcHead) (rest.map (· + gcHead) ++ more)
          (if lo < head then insertFreemem (unmark sweeper head) lo head
            else unmark sweeper head) =
        sweepObjects stop (last + gcHead) more swept) ∧
      last ∈ head :: rest ∧
      last + headerSize memory last =
        Harvest.tailStart (headerSize memory) (firstHeader block) (head :: rest) ∧
      last ∈ (harvest ++ (.gap lo (boundary - gcHead) ++ .run boundary block ++
        Harvest.between (headerSize memory) (firstHeader block) (head :: rest))).unmarked ∧
      Built memory (harvest ++ (.gap lo (boundary - gcHead) ++ .run boundary block ++
        Harvest.between (headerSize memory) (firstHeader block) (head :: rest))) swept := by
  obtain ⟨before, large, after⟩ := inBlock.spaced
  have head_mod := inBlock.aligned head (by simp)
  have after_le := after.le
  have layout : block ≤ firstHeader block ∧ blockBound block + gcHead ≤ stop ∧
      boundary ≤ head := by
    unfold firstHeader blockBound gcBlockSize gcHead at *
    omega
  have lo_le : min lo boundary ≤ head := by omega
  have unmarked : Built memory (harvest ++ .head head) (unmark sweeper head) :=
    built.unmark (clear.mono lo_le (by unfold gcHead at *; omega))
  have freed := unmarked.freeAcross pending boundary_mod positive block_mod le head_mod
    (by omega) (by omega)
    ((clear.mono (Nat.le_refl _) (by omega)).append
      ((Harvest.within_head head).clear_below (by omega)))
  have reordered : harvest ++ .head head ++ (.gap lo (boundary - gcHead) ++
      .run boundary block ++ .gap (firstHeader block) head) =
        harvest ++ (.gap lo (boundary - gcHead) ++ .run boundary block ++
          .gap (firstHeader block) head ++ .head head) := by
    ext1 <;> simp
  rw [reordered] at freed
  have clearRest : (harvest ++ (.gap lo (boundary - gcHead) ++ .run boundary block ++
      .gap (firstHeader block) head ++ .head head)).Clear
        (head + headerSize memory head) stop := by
    have size_mod := headerSize_mod memory head
    refine (clear.mono (by omega) (Nat.le_refl _)).append
      (Harvest.Clear.append (Harvest.Clear.append (Harvest.Clear.append ?_ ?_) ?_) ?_)
    · exact Harvest.within_gap.clear_above (by omega)
    · exact Harvest.within_run.clear_above (by omega)
    · exact Harvest.within_gap.clear_above (by omega)
    · exact (Harvest.within_head head).clear_above (by omega)
  obtain ⟨last, swept, run, lastIn, lastEnd, member, final⟩ := sweepObjects_inBlock block_mod
    stop_le after inBlock.aligned before large (by simp) freed clearRest
  have whole : harvest ++ (.gap lo (boundary - gcHead) ++ .run boundary block ++
      .gap (firstHeader block) head ++ .head head) ++
        Harvest.between (headerSize memory) (head + headerSize memory head) rest =
      harvest ++ (.gap lo (boundary - gcHead) ++ .run boundary block ++
        Harvest.between (headerSize memory) (firstHeader block) (head :: rest)) := by
    simp only [Harvest.between, Harvest.append_assoc]
  rw [whole] at member final
  exact ⟨last, swept, run, lastIn, lastEnd, member, final⟩

variable {live : Nat → List Nat}

def freeRegionEnd (sweeper : Sweeper) (object stop : Nat) : Sweeper :=
  let objectEnd := header object + size sweeper.memory object
  if objectEnd < stop - gcHead then insertFreemem sweeper objectEnd (stop - gcHead)
  else sweeper

/-- The remaining blocks of a region, behind the object that is swept last. -/
theorem sweepObjects_blocks {object boundary block stop next : Nat} {blocks : List Nat}
    (more : List Nat)
    (pending : Pending (object + headerSize memory object) boundary)
    (pending_le : object + headerSize memory object ≤ boundary)
    (boundary_mod : boundary % gcBlockSize = 0) (positive : 0 < boundary)
    (blocksTiled : Tiles (fun _ => gcBlockSize) block blocks stop)
    (block_mod : block % gcBlockSize = 0) (le : boundary ≤ block) (beyond : stop ≤ next)
    (object_lt : object + gcHead < stop)
    (inBlocks : ∀ block ∈ blocks, InBlock memory block (live block))
    (member : object ∈ harvest.unmarked) (built : Built memory harvest sweeper)
    (clear : harvest.Clear (object + headerSize memory object) stop) :
    ∃ last swept,
      sweepObjects stop (object + gcHead)
        ((blocks.flatMap live).map (· + gcHead) ++ next :: more) sweeper =
          some (last, next :: more, swept) ∧
      last < stop ∧
      Built memory (harvest ++ (.gap (object + headerSize memory object)
          (boundary - gcHead) ++
        Harvest.ofRegion (headerSize memory) live boundary blocks stop))
          (freeRegionEnd swept last stop) := by
  induction blocks generalizing object boundary block harvest sweeper with
  | nil =>
      obtain rfl : block = stop := blocksTiled
      refine ⟨object + gcHead, sweeper, ?_, object_lt, ?_⟩
      · rw [List.flatMap_nil, List.map_nil, List.nil_append, sweepObjects,
          if_neg (Nat.not_lt.mpr beyond)]
      · have stop_pos : 4096 ≤ block := by
          unfold gcBlockSize at *
          omega
        have end_mod : (block - gcHead) % 8 = 4 := by
          unfold gcBlockSize gcHead at *
          omega
        have freed := built.freeAcross pending boundary_mod positive block_mod le end_mod
          (by omega) (by unfold blockBound gcHead; omega) (clear.mono (by omega) (by omega))
        have nothing : Harvest.gap (firstHeader block) (block - gcHead) = .empty :=
          if_neg (by unfold firstHeader; omega)
        rw [nothing, Harvest.append_empty] at freed
        rw [freeRegionEnd, header_add, built.size_unmarked member]
        exact freed
  | cons current rest ih =>
      obtain ⟨rfl, _, after⟩ := blocksTiled
      have stop_le : current + gcBlockSize ≤ stop := after.le
      have block_le : current ≤ firstHeader current := Nat.le_add_right _ _
      have next_mod : (current + gcBlockSize) % gcBlockSize = 0 := by
        rw [Nat.add_mod_right]
        exact block_mod
      have inRest := fun block member => inBlocks block (List.mem_cons_of_mem _ member)
      have inBlock := inBlocks current (by simp)
      rw [List.flatMap_cons, Harvest.ofRegion]
      cases alive : live current with
      | nil =>
          rw [if_pos rfl, List.nil_append]
          exact ih pending pending_le boundary_mod positive after next_mod (by omega)
            object_lt inRest member built clear
      | cons head tail =>
          rw [alive] at inBlock
          have bounds := Harvest.tailStart_bounds inBlock.spaced
          obtain ⟨last, swept, run, lastIn, lastEnd, lastMember, kept⟩ := sweepObjects_block pending
            boundary_mod positive block_mod le stop_le inBlock built
            (clear.mono (by omega) (Nat.le_refl _))
          have head_bounds := inBlock.spaced.mem_bounds (List.mem_cons_self)
          have last_bounds := inBlock.spaced.mem_bounds lastIn
          have head_stop : head + gcHead < stop ∧ boundary ≤ head ∧
              last + gcHead < stop := by
            unfold firstHeader blockBound gcBlockSize memAlign gcHead at *
            omega
          have unmarked : Built memory (harvest ++ .head head) (unmark sweeper head) :=
            built.unmark (clear.mono (by omega) (by unfold gcHead at *; omega))
          have objectSize : size (unmark sweeper head).memory (object + gcHead) =
              headerSize memory object :=
            unmarked.size_unmarked (by simp [member])
          have lastPending := inBlock.pending block_mod (by simp)
          rw [← lastEnd] at lastPending bounds
          have clearRest : (harvest ++ (.gap (object + headerSize memory object)
              (boundary - gcHead) ++ .run boundary current ++ Harvest.between
                (headerSize memory) (firstHeader current) (head :: tail))).Clear
                  (last + headerSize memory last) stop := by
            have within := Harvest.within_between inBlock.spaced inBlock.large
            refine (clear.mono (by omega) (Nat.le_refl _)).append
              (Harvest.Clear.append (Harvest.Clear.append ?_ ?_) ?_)
            · exact Harvest.within_gap.clear_above (by omega)
            · exact Harvest.within_run.clear_above (by omega)
            · exact within.clear_above (Nat.le_of_eq lastEnd.symm)
          obtain ⟨final, result, finalRun, final_lt, finalBuilt⟩ := ih lastPending
            (by unfold blockBound gcHead at *; omega) next_mod (by omega) after next_mod
            (Nat.le_refl _) head_stop.2.2 inRest lastMember kept clearRest
          refine ⟨final, result, ?_, final_lt, ?_⟩
          · rw [List.cons_append, List.map_cons, List.map_append, List.cons_append,
              List.append_assoc, sweepObjects, if_pos head_stop.1]
            simp only [header_add, objectSize]
            rw [run]
            exact finalRun
          · rw [if_neg (by simp)]
            have whole : harvest ++ (.gap (object + headerSize memory object)
                  (boundary - gcHead) ++ .run boundary current ++
                Harvest.between (headerSize memory) (firstHeader current) (head :: tail)) ++
              (.gap (last + headerSize memory last) (current + gcBlockSize - gcHead) ++
                Harvest.ofRegion (headerSize memory) live (current + gcBlockSize) rest stop) =
              harvest ++ (.gap (object + headerSize memory object) (boundary - gcHead) ++
                (Harvest.ofBlock (headerSize memory) current (head :: tail) ++
                  .run boundary current ++
                    Harvest.ofRegion (headerSize memory) live (current + gcBlockSize) rest
                      stop)) := by
              have bound : current + gcBlockSize - gcHead = blockBound current := rfl
              rw [lastEnd, bound, Harvest.ofBlock]
              ext1 <;> simp
            rw [← whole]
            exact finalBuilt

theorem exists_first_live (live : Nat → List Nat) (blocks : List Nat) :
    (∀ block ∈ blocks, live block = []) ∨
      ∃ free block rest, blocks = free ++ block :: rest ∧
        (∀ other ∈ free, live other = []) ∧ live block ≠ [] := by
  induction blocks with
  | nil => exact .inl (by simp)
  | cons block rest ih =>
      by_cases dead : live block = []
      · rcases ih with allFree | ⟨free, found, behind, rfl, allFree, alive⟩
        · exact .inl (by simpa [dead] using allFree)
        · exact .inr ⟨block :: free, found, behind, rfl, by simpa [dead] using allFree, alive⟩
      · exact .inr ⟨[], block, rest, rfl, by simp, dead⟩

theorem flatMap_free {free : List Nat} (allFree : ∀ block ∈ free, live block = [])
    (rest : List Nat) : (free ++ rest).flatMap live = rest.flatMap live := by
  rw [List.flatMap_append, List.flatMap_eq_nil_iff.mpr allFree, List.nil_append]

theorem Harvest.ofRegion_free (size : Nat → Nat) {free : List Nat}
    (allFree : ∀ block ∈ free, live block = []) (start stop : Nat) (rest : List Nat) :
    Harvest.ofRegion size live start (free ++ rest) stop =
      Harvest.ofRegion size live start rest stop := by
  induction free with
  | nil => rfl
  | cons block free ih =>
      rw [List.cons_append, Harvest.ofRegion, if_pos (allFree block (by simp))]
      exact ih fun other member => allFree other (List.mem_cons_of_mem _ member)

theorem dropWhile_passed {start object : Nat} {passed rest : List Nat}
    (before : ∀ p ∈ passed, p < start) (reached : start ≤ object) :
    (passed ++ object :: rest).dropWhile (· < start) = object :: rest := by
  rw [List.dropWhile_append_of_pos (by simpa using before), List.dropWhile_cons_of_neg]
  simpa using reached

variable {regions : List SmallRegion} {region : SmallRegion} {layout : Nat → List Nat}

def SmallRegion.liveObjects (region : SmallRegion) (memory : Memory)
    (layout : Nat → List Nat) : List Nat :=
  (region.blocks.flatMap (region.survivors memory layout)).map (· + gcHead)

theorem sweepRegionSelective_spec (area : AreaTiled regions memory layout)
    (member : region ∈ regions) {passed more : List Nat} {next : Nat}
    (before : ∀ p ∈ passed, p < region.start) (beyond : region.stop < next)
    (built : Built memory harvest sweeper)
    (clear : harvest.Clear region.start region.stop) :
    ∃ passed' swept,
      sweepRegionSelective region
        (passed ++ (region.liveObjects memory layout ++ next :: more)) sweeper =
          some (passed' ++ next :: more, swept) ∧
      (∀ p ∈ passed', p < region.stop) ∧
      Built memory (harvest ++ Harvest.ofRegion (headerSize memory)
        (region.survivors memory layout) region.start region.blocks region.stop) swept := by
  obtain ⟨positive, start_lt, _⟩ := area.bounds region member
  obtain ⟨start_mod, stop_mod⟩ := area.aligned region member
  have blocksTiled := area.blocks_tiled member
  unfold SmallRegion.liveObjects
  rcases exists_first_live (region.survivors memory layout) region.blocks with
    allFree | ⟨free, block, rest, split, allFree, alive⟩
  · have none : region.blocks.flatMap (region.survivors memory layout) = [] :=
      List.flatMap_eq_nil_iff.mpr allFree
    have whole := Harvest.ofRegion_free (headerSize memory) allFree region.start
      region.stop []
    rw [List.append_nil] at whole
    rw [none, List.map_nil, List.nil_append, whole]
    refine ⟨[], freeBlockPart sweeper (region.start, region.stop), ?_, by simp, ?_⟩
    · rw [sweepRegionSelective, dropWhile_passed before (by omega)]
      simp [beyond, freeBlockPart, start_lt]
    · exact built.freeBlockPart start_mod stop_mod positive clear
  · cases survivors : region.survivors memory layout block with
    | nil => exact absurd survivors alive
    | cons head tail =>
        have inRegion : ∀ other ∈ block :: rest, other ∈ region.blocks := by
          intro other inside
          rw [split]
          exact List.mem_append_right _ inside
        have inBlock := area.survivors_inBlock member (inRegion block (by simp))
        have block_mod := area.block_mod member (inRegion block (by simp))
        rw [survivors] at inBlock
        rw [split, Tiles.append_iff] at blocksTiled
        obtain ⟨_, front, rfl, _, after⟩ := blocksTiled
        have start_le := front.le
        have stop_le : block + gcBlockSize ≤ region.stop := after.le
        have next_mod : (block + gcBlockSize) % gcBlockSize = 0 := by
          rw [Nat.add_mod_right]
          exact block_mod
        obtain ⟨last, middle, run, lastIn, lastEnd, lastMember, kept⟩ :=
          sweepObjects_block (.inl rfl) start_mod positive block_mod start_le stop_le inBlock
            built (clear.mono (by unfold firstHeader; omega) (Nat.le_refl _))
        have nothing : Harvest.gap (firstHeader region.start) (region.start - gcHead) =
            .empty :=
          if_neg (by unfold firstHeader; omega)
        rw [nothing, Harvest.empty_append] at kept lastMember
        have bounds := Harvest.tailStart_bounds inBlock.spaced
        have head_bounds := inBlock.spaced.mem_bounds (List.mem_cons_self)
        have last_bounds := inBlock.spaced.mem_bounds lastIn
        have within := Harvest.within_between inBlock.spaced inBlock.large
        have lastPending := inBlock.pending block_mod (by simp)
        rw [← lastEnd] at lastPending bounds within
        have block_le : block ≤ firstHeader block ∧
            blockBound block + gcHead ≤ block + gcBlockSize := by
          unfold firstHeader blockBound gcHead gcBlockSize
          omega
        have head_stop : region.start ≤ head + gcHead ∧ head + gcHead ≤ region.stop ∧
            last + gcHead < region.stop := by
          omega
        obtain ⟨final, result, finalRun, final_lt, finalBuilt⟩ :=
          sweepObjects_blocks more lastPending (by omega) next_mod (by omega) after next_mod
            (Nat.le_refl _) (Nat.le_of_lt beyond) head_stop.2.2
            (fun other inside => area.survivors_inBlock member
              (inRegion other (List.mem_cons_of_mem _ inside)))
            lastMember kept
            ((clear.mono (by omega) (Nat.le_refl _)).append
              ((Harvest.within_run.clear_above (by omega)).append
                (within.clear_above (Nat.le_refl _))))
        refine ⟨[final], freeRegionEnd result final region.stop, ?_, by simpa using final_lt,
          ?_⟩
        · rw [split, flatMap_free allFree, List.flatMap_cons, survivors, List.cons_append,
            List.map_cons, List.map_append, List.cons_append, List.append_assoc,
            sweepRegionSelective, dropWhile_passed before head_stop.1]
          simp only [header_add]
          rw [if_neg (Nat.not_lt.mpr head_stop.2.1)]
          have objects := run ((rest.flatMap (region.survivors memory layout)).map
            (· + gcHead) ++ next :: more)
          rw [finalRun] at objects
          unfold firstHeader at objects
          rw [objects]
          rfl
        · rw [split, Harvest.ofRegion_free _ allFree, Harvest.ofRegion, survivors,
            if_neg (by simp)]
          have bound : block + gcBlockSize - gcHead = blockBound block := rfl
          have whole : harvest ++ (.run region.start block ++ Harvest.between
                (headerSize memory) (firstHeader block) (head :: tail)) ++
              (.gap (last + headerSize memory last) (block + gcBlockSize - gcHead) ++
                Harvest.ofRegion (headerSize memory) (region.survivors memory layout)
                  (block + gcBlockSize) rest region.stop) =
              harvest ++ (Harvest.ofBlock (headerSize memory) block (head :: tail) ++
                .run region.start block ++ Harvest.ofRegion (headerSize memory)
                  (region.survivors memory layout) (block + gcBlockSize) rest
                    region.stop) := by
            rw [lastEnd, bound, Harvest.ofBlock]
            ext1 <;> simp
          rw [← whole]
          exact finalBuilt

theorem AreaTiled.liveObjects_bounds (area : AreaTiled regions memory layout)
    (member : region ∈ regions) {p : Nat} (live : p ∈ region.liveObjects memory layout) :
    region.start + memAlign ≤ p ∧ p < region.stop := by
  obtain ⟨head, inHeads, rfl⟩ := List.mem_map.mp live
  obtain ⟨block, inRegion, survives⟩ := List.mem_flatMap.mp inHeads
  have inBlock := (area.survivors_inBlock member inRegion).spaced.mem_bounds survives
  have inBlocks := (area.blocks_tiled member).mem_bounds inRegion
  unfold firstHeader blockBound memAlign gcHead gcBlockSize at *
  omega

theorem AreaTiled.next_object (area : AreaTiled (region :: regions) memory layout) :
    ∃ next more, regions.flatMap (·.liveObjects memory layout) ++ [2 ^ 32 - 1] =
      next :: more ∧ region.stop < next := by
  cases later : regions.flatMap (·.liveObjects memory layout) with
  | nil =>
      have below := (area.bounds region (by simp)).2.2
      have stop_mod := (area.aligned region (by simp)).2
      refine ⟨2 ^ 32 - 1, [], rfl, ?_⟩
      unfold gcBlockSize at stop_mod
      omega
  | cons next more =>
      refine ⟨next, more ++ [2 ^ 32 - 1], rfl, ?_⟩
      have live : next ∈ regions.flatMap (·.liveObjects memory layout) := by simp [later]
      obtain ⟨other, member, inOther⟩ := List.mem_flatMap.mp live
      have bounds := area.liveObjects_bounds (List.mem_cons_of_mem _ member) inOther
      have ordered := (List.pairwise_cons.mp area.ascending).1 other member
      unfold memAlign at bounds
      omega

theorem sweepRegionsSelective_spec (area : AreaTiled regions memory layout)
    {passed : List Nat} (before : ∀ p ∈ passed, ∀ region ∈ regions, p < region.start)
    (built : Built memory harvest sweeper)
    (clear : ∀ region ∈ regions, harvest.Clear region.start region.stop) :
    ∃ objects swept,
      regions.foldlM
        (fun state region => sweepRegionSelective region state.1 state.2)
        (passed ++ (regions.flatMap (·.liveObjects memory layout) ++ [2 ^ 32 - 1]),
          sweeper) = some (objects, swept) ∧
      Built memory (harvest ++ Harvest.ofArea memory layout regions) swept := by
  induction regions generalizing passed harvest sweeper with
  | nil => exact ⟨_, sweeper, rfl, by simpa [Harvest.ofArea] using built⟩
  | cons region rest ih =>
      obtain ⟨next, more, following, beyond⟩ := area.next_object
      obtain ⟨passed', middle, step, before', kept⟩ := sweepRegionSelective_spec area
        (by simp) (fun p member => before p member region (by simp)) beyond built
        (clear region (by simp))
      rw [← following] at step
      have ordered : ∀ p ∈ passed', ∀ other ∈ rest, p < other.start := by
        intro p member other inRest
        have := before' p member
        have := (List.pairwise_cons.mp area.ascending).1 other inRest
        omega
      obtain ⟨objects, swept, run, final⟩ := ih area.tail ordered kept
        (area.clear_tail clear)
      refine ⟨objects, swept, ?_, ?_⟩
      · rw [List.foldlM_cons, List.flatMap_cons, List.append_assoc]
        dsimp only
        rw [step]
        exact run
      · rw [Harvest.ofArea, ← Harvest.append_assoc]
        exact final

end

end LaTTe.Gc
