import LaTTe.Data.Insertion
import LaTTe.Gc.Small.Handover

namespace LaTTe.Gc

open LaTTe.Data

/-! Every way through `gc_malloc_small` keeps the division of the area. -/

def Intact (before after : Memory) (live : List Nat) : Prop :=
  ∀ head ∈ live, ∀ address, head ≤ address → address < head + headerSize before head →
    after address = before address

theorem Intact.refl (memory : Memory) (live : List Nat) : Intact memory memory live :=
  fun _ _ _ _ _ => rfl

theorem Intact.trans {first second third : Memory} {live : List Nat}
    (intact : Intact first second live) (intact' : Intact second third live) :
    Intact first third live := by
  intro head member address above below
  have header : second head = first head :=
    intact head member head (Nat.le_refl _) (by omega)
  rw [← intact head member address above below]
  apply intact' head member address above
  rwa [headerSize, header]

section

variable {owners : Owners} {area : Small} {live : List Nat}

theorem Divided.live_size (divided : Divided area live owners) {head : Nat}
    (member : head ∈ live) : headerSize area.memory head = area.pieceSize head := by
  rw [Small.pieceSize, if_neg (divided.object head member).2]

theorem Divided.intact_cursor (divided : Divided area live owners) {memory : Memory}
    (room : area.cursor < area.bound)
    (outside : ∀ address, address < area.cursor ∨ area.bound ≤ address →
      memory address = area.memory address) : Intact area.memory memory live := by
  intro head member address above below
  obtain ⟨piece, notCursor⟩ := divided.object head member
  have different : head ≠ area.cursor := fun same => notCursor ⟨same, room⟩
  have apart := divided.pieces_apart piece (divided.cursor room).1 different
  rw [pieceSize_cursor room] at apart
  rw [divided.live_size member] at below
  exact outside address (by omega)

theorem Divided.closeCursor_intact (divided : Divided area live owners) :
    Intact area.memory area.closeCursor.memory live := by
  unfold Small.closeCursor
  split
  · rename_i room
    apply divided.intact_cursor room
    intro address away
    exact Memory.store_other _ _ (by omega)
  · exact .refl _ _

theorem closeCursor_regions (area : Small) : area.closeCursor.regions = area.regions := by
  unfold Small.closeCursor
  split <;> rfl

theorem closeCursor_closed (area : Small) :
    area.closeCursor.cursor < area.closeCursor.bound →
      area.closeCursor.memory area.closeCursor.cursor =
        setFlag (area.closeCursor.bound - area.closeCursor.cursor) .free := by
  unfold Small.closeCursor
  split
  · exact fun _ => Memory.store_same _ _ _
  · exact fun room => absurd room ‹_›

theorem Divided.getSmallBlock_intact (divided : Divided area live owners) {group : Nat × Nat}
    {rest : List (Nat × Nat)} (listed : owners.free = group :: rest) :
    Intact area.memory area.getSmallBlock.2.memory live := by
  intro head member address above below
  have inFree : group ∈ owners.free := by simp [listed]
  have apart := divided.piece_group_apart (divided.object head member).1 inFree
  have positive : 0 < gcBlockSize := by decide
  rw [divided.live_size member] at below
  exact (getSmallBlock_spec divided listed).2.1 address (by omega)

theorem getSmallChunk_cursor (area : Small) (cursor bound size : Nat) :
    ({ area with cursor := cursor, bound := bound } : Small).getSmallChunk size =
      area.getSmallChunk size := by
  unfold Small.getSmallChunk Small.getSmallBlock
  dsimp only
  split
  · rfl
  · split
    · split <;> rfl
    · rfl

/-- A successful `get_small_chunk` installs a new current free area that is large
enough, and takes the object from its beginning. -/
structure Attached (area : Small) (live : List Nat) (size tmp : Nat) (after : Small)
    (attached : Small) (owners : Owners) : Prop where
  divided : Divided attached live owners
  intact : Intact area.memory attached.memory live
  cursor : attached.cursor = tmp
  room : tmp + size ≤ attached.bound
  after_eq : after = { attached with cursor := tmp + size }

theorem Divided.chunks_cons (divided : Divided area live owners) (found : area.chunks ≠ 0) :
    ∃ chunk rest, owners.chunks = chunk :: rest ∧ area.chunks = chunk.1 := by
  have chain := divided.chunkChain
  cases listed : owners.chunks with
  | nil =>
      rw [listed] at chain
      exact absurd chain found
  | cons chunk rest =>
      rw [listed] at chain
      exact ⟨chunk, rest, rfl, chain.1⟩

theorem Divided.free_cons (divided : Divided area live owners) (found : area.blocks ≠ 0) :
    ∃ group rest, owners.free = group :: rest ∧ area.blocks = group.1 := by
  have chain := divided.blockChain
  cases listed : owners.free with
  | nil =>
      rw [listed] at chain
      exact absurd chain found
  | cons group rest =>
      rw [listed] at chain
      exact ⟨group, rest, rfl, chain.1⟩

theorem Divided.getSmallChunk (divided : Divided area live owners)
    (noCursor : ¬area.cursor < area.bound) {size tmp : Nat} {after : Small}
    (small : size < gcMaxSmallObjectSize)
    (found : area.getSmallChunk size = some (tmp, after)) :
    ∃ attached owners', Attached area live size tmp after attached owners' := by
  unfold Small.getSmallChunk at found
  split at found
  · rename_i fits
    obtain ⟨chunk, rest, listed, first⟩ := divided.chunks_cons fits.1
    obtain ⟨word, size_mod, _⟩ := divided.chunk chunk (by simp [listed])
    have chunkSize : clearFlag (area.memory area.chunks) .free = chunk.2 := by
      rw [first, word]
      exact clearFlag_setFlag_of_aligned .free size_mod
    rw [chunkSize] at fits
    simp only [chunkSize, Option.some.injEq, Prod.mk.injEq] at found
    obtain ⟨rfl, rfl⟩ := found
    refine ⟨_, _, divided.takeChunk listed noCursor, .refl _ _, first.symm, ?_, ?_⟩
    · dsimp only
      omega
    · rw [first]
  · split at found
    · rename_i available
      obtain ⟨group, rest, listed, first⟩ := divided.free_cons available
      simp only [(getSmallBlock_spec divided listed).1, Option.some.injEq,
        Prod.mk.injEq] at found
      obtain ⟨rfl, rfl⟩ := found
      refine ⟨_, _, divided.takeBlock listed noCursor, divided.getSmallBlock_intact listed,
        rfl, ?_, rfl⟩
      dsimp only
      unfold firstHeader blockBound gcBlockSize memAlign gcHead gcMaxSmallObjectSize at *
      omega
    · cases found

def Small.Grant.Ok (regions : List SmallRegion) : Small.Grant → Prop
  | .refused => True
  | .noTable => True
  | .region start _ =>
      start % gcBlockSize = 0 ∧ 0 < start ∧ start + gcRegionSize < 2 ^ 32 ∧
        ∀ region ∈ regions, start + gcRegionSize ≤ region.start ∨ region.stop ≤ start

variable {regions : List SmallRegion}

theorem insertRegion_eq (regions : List SmallRegion) (region : SmallRegion) :
    Small.insertRegion regions region =
      insertBehind (fun node => !(node.start < region.start)) regions region :=
  rfl

theorem mem_insertRegion {region other : SmallRegion} :
    other ∈ Small.insertRegion regions region ↔ other = region ∨ other ∈ regions := by
  rw [insertRegion_eq]
  exact mem_insertBehind

theorem RegionsOk.insertRegion (ok : RegionsOk regions) {start : Nat}
    {table : Nat → BitVec 32} (granted : (Small.Grant.region start table).Ok regions) :
    RegionsOk (Small.insertRegion regions ⟨start, start + gcRegionSize, table⟩) := by
  obtain ⟨start_mod, positive, below, apart⟩ := granted
  have nonempty : ∀ region ∈ regions, region.start < region.stop := by
    intro region member
    rw [ok.whole region member]
    exact Nat.lt_add_of_pos_right (by decide)
  refine ⟨?_, ?_, ?_, ?_⟩
  · intro region member
    rcases mem_insertRegion.mp member with rfl | old
    · exact start_mod
    · exact ok.aligned region old
  · intro region member
    rcases mem_insertRegion.mp member with rfl | old
    · rfl
    · exact ok.whole region old
  · intro region member
    rcases mem_insertRegion.mp member with rfl | old
    · exact ⟨positive, below⟩
    · exact ok.bounds region old
  · rw [insertRegion_eq]
    apply insertBehind_pairwise ok.ascending
    · intro node member behind
      have starts : start ≤ node.start := by simpa using behind
      have := nonempty node member
      rcases apart node member with before | behind
      · exact before
      · omega
    · intro node member before
      have starts : node.start < start := by simpa using before
      have : 0 < gcRegionSize := by decide
      rcases apart node member with before | behind
      · omega
      · exact behind
    · intro first _ node member ordered before
      have := nonempty node member
      omega

/-- The blocks of a new region are free. -/
theorem Divided.expand (divided : Divided area live owners) (noFree : owners.free = [])
    {start : Nat} {table : Nat → BitVec 32}
    (granted : (Small.Grant.region start table).Ok area.regions) :
    Divided { area with
        regions := Small.insertRegion area.regions ⟨start, start + gcRegionSize, table⟩
        blocks := start
        memory := (area.memory.store start gcRegionSize).store (start + 4) 0 } live
      { owners with free := [(start, gcRegionSize)] } := by
  have ok := divided.regions.insertRegion granted
  obtain ⟨start_mod, positive, below, apart⟩ := granted
  have size_pos : 4096 ≤ gcRegionSize := by decide
  have newMember : (⟨start, start + gcRegionSize, table⟩ : SmallRegion) ∈
      Small.insertRegion area.regions ⟨start, start + gcRegionSize, table⟩ :=
    mem_insertRegion.mpr (.inl rfl)
  have oldMember : ∀ region ∈ area.regions, region ∈
      Small.insertRegion area.regions ⟨start, start + gcRegionSize, table⟩ :=
    fun region member => mem_insertRegion.mpr (.inr member)
  -- the blocks of the new region are the ones on the free blocks list
  have usedIff : ∀ block, Used
      (Small.insertRegion area.regions ⟨start, start + gcRegionSize, table⟩)
      { owners with free := [(start, gcRegionSize)] } block ↔
        Used area.regions owners block := by
    intro block
    constructor
    · rintro ⟨⟨region, member, inRegion⟩, outside⟩
      rcases mem_insertRegion.mp member with rfl | old
      · have inside := (ok.mem_blocks newMember).mp inRegion
        have := outside (start, gcRegionSize) (by simp)
        dsimp only at inside this
        unfold gcBlockSize at inside
        omega
      · refine ⟨⟨region, old, inRegion⟩, ?_⟩
        rw [Outside, noFree]
        simp
    · rintro ⟨⟨region, member, inRegion⟩, _⟩
      refine ⟨⟨region, oldMember region member, inRegion⟩, ?_⟩
      intro group isNew
      rw [List.mem_singleton.mp isNew]
      have inside := (divided.regions.mem_blocks member).mp inRegion
      have := apart region member
      unfold gcBlockSize at inside
      dsimp only
      omega
  have pieceIff : ∀ head, Piece
      (Small.insertRegion area.regions ⟨start, start + gcRegionSize, table⟩)
      { owners with free := [(start, gcRegionSize)] } head ↔
        Piece area.regions owners head := by
    intro head
    exact exists_congr fun block => and_congr_left fun _ => usedIff block
  have away : ∀ head, Piece area.regions owners head →
      head + 8 ≤ start ∨ start + gcRegionSize ≤ head := by
    rintro head ⟨block, used, member⟩
    have bounds := divided.piece_bounds used member
    obtain ⟨⟨region, inRegions, inRegion⟩, _⟩ := used
    have inside := (divided.regions.mem_blocks inRegions).mp inRegion
    have := apart region inRegions
    unfold firstHeader blockBound gcBlockSize memAlign gcHead at *
    omega
  have word : ∀ address, address + 4 ≤ start ∨ start + 8 ≤ address →
      ((area.memory.store start gcRegionSize).store (start + 4) 0) address =
        area.memory address := by
    intro address outside
    rw [Memory.store_other _ _ (by omega), Memory.store_other _ _ (by omega)]
  have sameSize : ∀ head, Piece area.regions owners head →
      (Small.mk ((area.memory.store start gcRegionSize).store (start + 4) 0)
        (Small.insertRegion area.regions ⟨start, start + gcRegionSize, table⟩)
        area.cursor area.bound area.chunks start).pieceSize head =
          area.pieceSize head := by
    intro head piece
    have := away head piece
    exact Small.pieceSize_congr rfl rfl (word head (by omega))
  refine ⟨ok, ?_, ?_, ?_, ?_, divided.chunksDistinct, ?_, ?_, by simp, ?_, ?_,
    divided.liveDistinct⟩
  · intro block used
    have used := (usedIff block).mp used
    exact (divided.tiled block used).congr fun head member =>
      sameSize head ⟨block, used, member⟩
  · exact fun room => ⟨(pieceIff _).mpr (divided.cursor room).1, (divided.cursor room).2⟩
  · apply divided.chunkChain.congr
    intro node member
    obtain ⟨chunk, inChunks, rfl⟩ := List.mem_map.mp member
    have := away chunk.1 (divided.chunk chunk inChunks).2.2.1
    exact word _ (by omega)
  · intro chunk member
    obtain ⟨chunkWord, chunk_mod, piece, notCursor⟩ := divided.chunk chunk member
    have := away chunk.1 piece
    exact ⟨(word _ (by omega)).trans chunkWord, chunk_mod, (pieceIff _).mpr piece, notCursor⟩
  · exact ⟨rfl, Memory.store_same _ _ _⟩
  · intro group isNew
    rw [List.mem_singleton.mp isNew]
    refine ⟨?_, by dsimp only; omega, (by decide : gcRegionSize % gcBlockSize = 0), _,
      newMember, ?_, Nat.le_refl _⟩
    · exact (Memory.store_other _ _ (by omega)).trans (Memory.store_same _ _ _)
    · rw [ok.mem_blocks newMember]
      refine ⟨start_mod, Nat.le_refl _, ?_⟩
      unfold gcBlockSize
      dsimp only
      omega
  · intro head piece notCursor
    have piece := (pieceIff head).mp piece
    have := away head piece
    have facts := divided.header head piece notCursor
    dsimp only
    rw [word head (by omega)]
    exact facts
  · intro head member
    exact ⟨(pieceIff head).mpr (divided.object head member).1, (divided.object head member).2⟩

theorem Divided.expand_intact (divided : Divided area live owners) {start : Nat}
    {table : Nat → BitVec 32} (granted : (Small.Grant.region start table).Ok area.regions) :
    Intact area.memory ((area.memory.store start gcRegionSize).store (start + 4) 0) live := by
  intro head member address above below
  have size_pos : 4096 ≤ gcRegionSize := by decide
  rw [divided.live_size member] at below
  obtain ⟨block, used, inBlock⟩ := (divided.object head member).1
  have bounds := divided.piece_bounds used inBlock
  obtain ⟨⟨region, inRegions, inRegion⟩, _⟩ := used
  have inside := (divided.regions.mem_blocks inRegions).mp inRegion
  have := granted.2.2.2 region inRegions
  unfold firstHeader blockBound gcBlockSize memAlign gcHead at *
  rw [Memory.store_other _ _ (by omega), Memory.store_other _ _ (by omega)]

def Small.Outcome.Keeps (before : Small) (live : List Nat) (size : Nat) :
    Small.Outcome → Prop
  | .allocated p after =>
      (∃ owners, Divided after (header p :: live) owners) ∧
        Intact before.memory after.memory live ∧ headerSize after.memory (header p) = size
  | .outOfMemory after =>
      (∃ owners, Divided after live owners) ∧ Intact before.memory after.memory live
  | .collecting after =>
      (∃ owners, Divided after live owners) ∧ Intact before.memory after.memory live

theorem Small.Outcome.Keeps.after_intact {before middle : Small} {size : Nat}
    {outcome : Small.Outcome} (intact : Intact before.memory middle.memory live)
    (keeps : outcome.Keeps middle live size) : outcome.Keeps before live size := by
  cases outcome with
  | allocated p after =>
      exact ⟨keeps.1, intact.trans keeps.2.1, keeps.2.2⟩
  | outOfMemory after => exact ⟨keeps.1, intact.trans keeps.2⟩
  | collecting after => exact ⟨keeps.1, intact.trans keeps.2⟩

theorem getSmallChunk_none {size : Nat} (failed : area.getSmallChunk size = none) :
    area.blocks = 0 := by
  by_contra available
  unfold Small.getSmallChunk at failed
  split at failed
  · cases failed
  · simp at failed

theorem Divided.free_nil (divided : Divided area live owners) (none : area.blocks = 0) :
    owners.free = [] := by
  cases listed : owners.free with
  | nil => rfl
  | cons group rest =>
      have chain := divided.blockChain
      rw [listed] at chain
      have first : area.blocks = group.1 := chain.1
      have := (divided.group_facts (by simp [listed] : group ∈ owners.free)).2.1
      omega

section

variable {size : Nat} (positive : 0 < size) (size_mod : size % 8 = 0)

include positive size_mod

theorem Divided.finish (divided : Divided area live owners)
    (room : area.cursor + size ≤ area.bound) :
    ((({ area with cursor := area.cursor + size } : Small).finish area.cursor size).Keeps
      area live size) := by
  have object : Gc.header (area.cursor + gcHead) = area.cursor := header_add area.cursor
  refine ⟨⟨owners.carve area size, ?_⟩, ?_, ?_⟩
  · rw [object]
    exact divided.carve positive size_mod room
  · apply divided.intact_cursor (by omega)
    intro address away
    dsimp only
    rw [Memory.store_other _ _ (by omega), Small.zero, if_neg (by omega)]
  · rw [object, headerSize]
    dsimp only
    rw [Memory.store_same, maskSize_of_aligned size_mod]

theorem Attached.finish {tmp : Nat} {after attached : Small}
    (taken : Attached area live size tmp after attached owners) :
    (after.finish tmp size).Keeps area live size := by
  obtain ⟨divided, intact, rfl, room, rfl⟩ := taken
  exact (divided.finish positive size_mod room).after_intact intact

theorem Divided.getSmallChunk_closed (divided : Divided area live owners)
    (closed : area.cursor < area.bound →
      area.memory area.cursor = setFlag (area.bound - area.cursor) .free)
    (small : size < gcMaxSmallObjectSize) {tmp : Nat} {after : Small}
    (found : area.getSmallChunk size = some (tmp, after)) :
    (after.finish tmp size).Keeps area live size := by
  rw [← getSmallChunk_cursor area 0 0 size] at found
  obtain ⟨attached, owners', taken⟩ :=
    (divided.dropCursor closed).getSmallChunk (Nat.lt_irrefl _) small found
  exact taken.finish positive size_mod

theorem Divided.expandAndAllocate (divided : Divided area live owners)
    (closed : area.cursor < area.bound →
      area.memory area.cursor = setFlag (area.bound - area.cursor) .free)
    (small : size < gcMaxSmallObjectSize) (failed : area.getSmallChunk size = none)
    {grant : Small.Grant} (granted : grant.Ok area.regions) :
    (area.expandAndAllocate size grant).Keeps area live size := by
  have noFree := divided.free_nil (getSmallChunk_none failed)
  unfold Small.expandAndAllocate
  cases grant with
  | refused =>
      simp only [Small.expandSmallArea, failed]
      exact ⟨⟨owners, divided⟩, .refl _ _⟩
  | noTable => exact ⟨⟨owners, divided⟩, .refl _ _⟩
  | region start table =>
      have intact := divided.expand_intact granted
      simp only [Small.expandSmallArea]
      split
      · exact ⟨⟨_, divided.expand noFree granted⟩, intact⟩
      · rename_i found
        rw [← getSmallChunk_cursor _ 0 0 size] at found
        obtain ⟨attached, owners', taken⟩ :=
          ((divided.dropCursor closed).expand noFree granted).getSmallChunk
            (Nat.lt_irrefl _) small found
        exact (taken.finish positive size_mod).after_intact intact

theorem Divided.resumeSmallAllocate (divided : Divided area live owners)
    (small : size < gcMaxSmallObjectSize) {grant : Small.Grant}
    (granted : grant.Ok area.regions) :
    (area.resumeSmallAllocate size grant).Keeps area live size := by
  apply Small.Outcome.Keeps.after_intact divided.closeCursor_intact
  rw [← closeCursor_regions] at granted
  unfold Small.resumeSmallAllocate
  dsimp only
  split
  · rename_i found
    exact divided.closeCursor.getSmallChunk_closed positive size_mod
      (closeCursor_closed area) small found
  · rename_i failed
    exact divided.closeCursor.expandAndAllocate positive size_mod (closeCursor_closed area)
      small failed granted

theorem Divided.slowSmallAllocate (divided : Divided area live owners)
    (small : size < gcMaxSmallObjectSize) (room : Bool) {grant : Small.Grant}
    (granted : grant.Ok area.regions) :
    (area.slowSmallAllocate size room grant).Keeps area live size := by
  apply Small.Outcome.Keeps.after_intact divided.closeCursor_intact
  rw [← closeCursor_regions] at granted
  unfold Small.slowSmallAllocate
  dsimp only
  split
  · rename_i found
    exact divided.closeCursor.getSmallChunk_closed positive size_mod
      (closeCursor_closed area) small found
  · rename_i failed
    split
    · exact divided.closeCursor.expandAndAllocate positive size_mod (closeCursor_closed area)
        small failed granted
    · exact ⟨⟨owners, divided.closeCursor.dropCursor (closeCursor_closed area)⟩, .refl _ _⟩

theorem Divided.gcMallocSmall (divided : Divided area live owners)
    (small : size < gcMaxSmallObjectSize) (room : Bool) {grant : Small.Grant}
    (granted : grant.Ok area.regions) :
    (area.gcMallocSmall size room grant).Keeps area live size := by
  unfold Small.gcMallocSmall
  split
  · exact divided.slowSmallAllocate positive size_mod small room granted
  · rename_i fits
    exact divided.finish positive size_mod (Nat.le_of_not_lt fits)

end

end

end LaTTe.Gc
