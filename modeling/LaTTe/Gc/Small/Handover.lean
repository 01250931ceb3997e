import LaTTe.Gc.Small.Owners

namespace LaTTe.Gc

open LaTTe.Data

/-! Memory changes its owner. -/

section

variable {owners : Owners} {area : Small} {live : List Nat}

/-- The division rests on the headers, the links and the sizes of the groups only. -/
theorem Divided.frame (divided : Divided area live owners) {memory : Memory}
    (headers : ∀ head, Piece area.regions owners head → ¬area.AtCursor head →
      memory head = area.memory head)
    (links : ∀ chunk ∈ owners.chunks, memory (chunk.1 + 4) = area.memory (chunk.1 + 4))
    (groups : ∀ group ∈ owners.free, memory group.1 = area.memory group.1 ∧
      memory (group.1 + 4) = area.memory (group.1 + 4)) :
    Divided { area with memory := memory } live owners where
  regions := divided.regions
  tiled := by
    intro block used
    apply (divided.tiled block used).congr
    intro head member
    by_cases atCursor : area.AtCursor head
    · rw [Small.pieceSize, Small.pieceSize, if_pos atCursor]
      exact if_pos atCursor
    · exact Small.pieceSize_congr rfl rfl (headers head ⟨block, used, member⟩ atCursor)
  cursor := divided.cursor
  chunkChain := by
    apply divided.chunkChain.congr
    intro node member
    obtain ⟨chunk, inChunks, rfl⟩ := List.mem_map.mp member
    exact links chunk inChunks
  chunk := by
    intro chunk member
    obtain ⟨size, size_mod, piece, notCursor⟩ := divided.chunk chunk member
    exact ⟨(headers chunk.1 piece notCursor).trans size, size_mod, piece, notCursor⟩
  chunksDistinct := divided.chunksDistinct
  blockChain := by
    apply divided.blockChain.congr
    intro node member
    obtain ⟨group, inFree, rfl⟩ := List.mem_map.mp member
    exact (groups group inFree).2
  group := by
    intro group member
    obtain ⟨size, rest⟩ := divided.group group member
    exact ⟨(groups group member).1.trans size, rest⟩
  groupsAscending := divided.groupsAscending
  header := by
    intro head piece notCursor
    have facts := divided.header head piece notCursor
    rwa [← headers head piece notCursor] at facts
  object := divided.object
  liveDistinct := divided.liveDistinct

theorem Divided.chunk_size (divided : Divided area live owners) {chunk : Nat × Nat}
    (member : chunk ∈ owners.chunks) : area.pieceSize chunk.1 = chunk.2 := by
  obtain ⟨size, size_mod, _, notCursor⟩ := divided.chunk chunk member
  rw [Small.pieceSize, if_neg notCursor, headerSize, size, maskSize_setFlag,
    maskSize_of_aligned size_mod]

theorem Divided.piece_large (divided : Divided area live owners) {head : Nat}
    (piece : Piece area.regions owners head) :
    8 ≤ area.pieceSize head ∧ head % 8 = 4 ∧ 0 < head := by
  obtain ⟨block, used, member⟩ := piece
  have bounds := divided.piece_bounds used member
  exact ⟨bounds.2.1, bounds.2.2.2, by omega⟩

theorem Divided.frame_piece (divided : Divided area live owners) {memory : Memory}
    {owner : Nat} (piece : Piece area.regions owners owner)
    (notChunk : ∀ chunk ∈ owners.chunks, chunk.1 ≠ owner)
    (outside : ∀ address, address < owner ∨ owner + area.pieceSize owner ≤ address →
      memory address = area.memory address)
    (header : ¬area.AtCursor owner → memory owner = area.memory owner) :
    Divided { area with memory := memory } live owners := by
  apply divided.frame
  · intro head headPiece notCursor
    by_cases same : head = owner
    · subst same
      exact header notCursor
    · apply outside
      have := (divided.piece_large headPiece).1
      rcases divided.pieces_apart headPiece piece same with before | behind
      · exact .inl (by omega)
      · exact .inr behind
  · intro chunk member
    have chunkPiece := (divided.chunk chunk member).2.2.1
    have := (divided.piece_large chunkPiece).1
    apply outside
    rcases divided.pieces_apart chunkPiece piece (notChunk chunk member) with
      before | behind
    · exact .inl (by omega)
    · exact .inr (by omega)
  · intro group member
    have facts := divided.group_facts member
    have apart := divided.piece_group_apart piece member
    have : 8 ≤ gcBlockSize := by decide
    constructor
    · exact outside _ (by omega)
    · exact outside _ (by omega)

theorem Divided.cursor_not_chunk (divided : Divided area live owners)
    (room : area.cursor < area.bound) : ∀ chunk ∈ owners.chunks, chunk.1 ≠ area.cursor := by
  intro chunk member same
  exact (divided.chunk chunk member).2.2.2 ⟨same, room⟩

theorem Divided.pieceSize_cursor (room : area.cursor < area.bound) :
    area.pieceSize area.cursor = area.bound - area.cursor :=
  if_pos ⟨rfl, room⟩

theorem Divided.closeCursor (divided : Divided area live owners) :
    Divided area.closeCursor live owners := by
  unfold Small.closeCursor
  split
  · rename_i room
    have piece := (divided.cursor room).1
    have size := pieceSize_cursor room
    apply divided.frame_piece piece (divided.cursor_not_chunk room)
    · intro address away
      apply Memory.store_other
      omega
    · exact fun notCursor => absurd ⟨rfl, room⟩ notCursor
  · exact divided

/-- The current free area becomes a free piece on no list. -/
theorem Divided.dropCursor (divided : Divided area live owners)
    (closed : area.cursor < area.bound →
      area.memory area.cursor = setFlag (area.bound - area.cursor) .free) :
    Divided { area with cursor := 0, bound := 0 } live owners := by
  have none : ∀ head, ¬({ area with cursor := 0, bound := 0 } : Small).AtCursor head :=
    fun head atCursor => Nat.lt_irrefl _ atCursor.2
  have size : ∀ head, ({ area with cursor := 0, bound := 0 } : Small).pieceSize head =
      area.pieceSize head := by
    intro head
    rw [Small.pieceSize, if_neg (none head), Small.pieceSize]
    split
    · rename_i atCursor
      obtain ⟨rfl, room⟩ := atCursor
      rw [headerSize, closed room, maskSize_setFlag,
        maskSize_of_aligned (divided.cursor room).2]
    · rfl
  refine ⟨divided.regions, ?_, fun room => absurd room (Nat.lt_irrefl _),
    divided.chunkChain, ?_, divided.chunksDistinct, divided.blockChain, divided.group,
    divided.groupsAscending, ?_, ?_, divided.liveDistinct⟩
  · intro block used
    exact (divided.tiled block used).congr fun head _ => size head
  · intro chunk member
    obtain ⟨word, size_mod, piece, _⟩ := divided.chunk chunk member
    exact ⟨word, size_mod, piece, none chunk.1⟩
  · intro head piece _
    by_cases atCursor : area.AtCursor head
    · obtain ⟨rfl, room⟩ := atCursor
      have notLive : area.cursor ∉ live :=
        fun member => (divided.object _ member).2 ⟨rfl, room⟩
      have size_mod := (divided.cursor room).2
      dsimp only
      rw [closed room]
      simp [hasFlag_of_aligned _ size_mod, notLive]
    · exact divided.header head piece atCursor
  · exact fun head member => ⟨(divided.object head member).1, none head⟩

/-- The pieces after an object of `size` bytes is cut from the current free area. -/
def Small.cut (area : Small) (size head : Nat) : List Nat :=
  if head = area.cursor then
    if area.cursor + size < area.bound then [area.cursor, area.cursor + size]
    else [area.cursor]
  else
    [head]

def Owners.carve (owners : Owners) (area : Small) (size : Nat) : Owners :=
  { owners with layout := fun block => (owners.layout block).flatMap (area.cut size) }

theorem Small.mem_cut {size head other : Nat} :
    other ∈ area.cut size head ↔
      other = head ∨ head = area.cursor ∧ other = area.cursor + size ∧
        area.cursor + size < area.bound := by
  unfold Small.cut
  split
  · rename_i same
    subst same
    split
    · rename_i room
      simp [room]
    · rename_i full
      simp [full]
  · rename_i different
    simp [different]

theorem piece_carve {size other : Nat} :
    Piece area.regions (owners.carve area size) other ↔
      Piece area.regions owners other ∨
        Piece area.regions owners area.cursor ∧ other = area.cursor + size ∧
          area.cursor + size < area.bound := by
  constructor
  · rintro ⟨block, used, member⟩
    obtain ⟨head, inBlock, inCut⟩ := List.mem_flatMap.mp member
    rcases Small.mem_cut.mp inCut with rfl | ⟨rfl, same, room⟩
    · exact .inl ⟨block, used, inBlock⟩
    · exact .inr ⟨⟨block, used, inBlock⟩, same, room⟩
  · rintro (⟨block, used, member⟩ | ⟨⟨block, used, member⟩, same, room⟩)
    · exact ⟨block, used, List.mem_flatMap.mpr
        ⟨other, member, Small.mem_cut.mpr (.inl rfl)⟩⟩
    · exact ⟨block, used, List.mem_flatMap.mpr
        ⟨area.cursor, member, Small.mem_cut.mpr (.inr ⟨rfl, same, room⟩)⟩⟩

/-- The cursor moves behind a new object whose header is written. -/
theorem Divided.advance (divided : Divided area live owners) {size : Nat} (positive : 0 < size)
    (size_mod : size % 8 = 0) (room : area.cursor + size ≤ area.bound)
    (written : area.memory area.cursor = size) :
    Divided { area with cursor := area.cursor + size } (area.cursor :: live)
      (owners.carve area size) := by
  have room' : area.cursor < area.bound := by omega
  obtain ⟨piece, bound_mod⟩ := divided.cursor room'
  have fullSize := pieceSize_cursor room'
  -- the other pieces lie outside of the current free area
  have away : ∀ head, Piece area.regions owners head → head ≠ area.cursor →
      head < area.cursor ∨ area.bound ≤ head := by
    intro head headPiece different
    have := (divided.piece_large headPiece).1
    have := divided.pieces_apart headPiece piece different
    omega
  have notNew : ∀ head, Piece area.regions owners head → head ≠ area.cursor →
      ¬({ area with cursor := area.cursor + size } : Small).AtCursor head := by
    rintro head headPiece different ⟨same, rest⟩
    dsimp only at same rest
    have := away head headPiece different
    omega
  have notFirst : ¬({ area with cursor := area.cursor + size } : Small).AtCursor
      area.cursor := by
    rintro ⟨same, _⟩
    dsimp only at same
    omega
  have otherSize : ∀ head, Piece area.regions owners head → head ≠ area.cursor →
      ({ area with cursor := area.cursor + size } : Small).pieceSize head =
        area.pieceSize head := by
    intro head headPiece different
    rw [Small.pieceSize, if_neg (notNew head headPiece different), Small.pieceSize,
      if_neg (fun atCursor => different atCursor.1)]
  have objectSize :
      ({ area with cursor := area.cursor + size } : Small).pieceSize area.cursor = size := by
    rw [Small.pieceSize, if_neg notFirst, headerSize, written, maskSize_of_aligned size_mod]
  have cuts : ∀ head, Piece area.regions owners head →
      Tiles ({ area with cursor := area.cursor + size } : Small).pieceSize head
        (area.cut size head) (head + area.pieceSize head) := by
    intro head headPiece
    by_cases same : head = area.cursor
    · subst same
      rw [fullSize, Small.cut, if_pos rfl]
      split
      · rename_i rest
        refine ⟨rfl, by rw [objectSize]; exact positive, by rw [objectSize], ?_, ?_⟩
        · rw [Small.pieceSize, if_pos ⟨rfl, rest⟩]
          dsimp only
          omega
        · rw [Tiles.nil_iff, Small.pieceSize, if_pos ⟨rfl, rest⟩]
          dsimp only
          omega
      · refine ⟨rfl, by rw [objectSize]; exact positive, ?_⟩
        rw [Tiles.nil_iff, objectSize]
        omega
    · rw [Small.cut, if_neg same]
      have large := (divided.piece_large headPiece).1
      refine ⟨rfl, ?_, ?_⟩
      · rw [otherSize head headPiece same]
        omega
      · rw [Tiles.nil_iff, otherSize head headPiece same]
  refine ⟨divided.regions, ?_, ?_, divided.chunkChain, ?_, divided.chunksDistinct,
    divided.blockChain, divided.group, divided.groupsAscending, ?_, ?_, ?_⟩
  · intro block used
    exact (divided.tiled block used).refine fun head member =>
      cuts head ⟨block, used, member⟩
  · intro rest
    refine ⟨piece_carve.mpr (.inr ⟨piece, rfl, rest⟩), ?_⟩
    dsimp only at rest ⊢
    omega
  · intro chunk member
    obtain ⟨word, chunk_mod, chunkPiece, _⟩ := divided.chunk chunk member
    have different := divided.cursor_not_chunk room' chunk member
    exact ⟨word, chunk_mod, piece_carve.mpr (.inl chunkPiece),
      notNew _ chunkPiece different⟩
  · intro head headPiece notCursor
    have headPiece : Piece area.regions (owners.carve area size) head := headPiece
    by_cases same : head = area.cursor
    · subst same
      dsimp only
      rw [written]
      simp [hasFlag_of_aligned _ size_mod]
    · rcases piece_carve.mp headPiece with old | ⟨_, new, rest⟩
      · have facts := divided.header head old (fun atCursor => same atCursor.1)
        simpa [same] using facts
      · exact absurd ⟨new, rest⟩ notCursor
  · intro head member
    rcases List.mem_cons.mp member with rfl | old
    · exact ⟨piece_carve.mpr (.inl piece), notFirst⟩
    · obtain ⟨headPiece, notCursor⟩ := divided.object head old
      have different : head ≠ area.cursor := fun same => notCursor ⟨same, room'⟩
      exact ⟨piece_carve.mpr (.inl headPiece), notNew head headPiece different⟩
  · refine List.nodup_cons.mpr ⟨?_, divided.liveDistinct⟩
    exact fun member => (divided.object _ member).2 ⟨rfl, room'⟩

theorem Divided.carve (divided : Divided area live owners) {size : Nat} (positive : 0 < size)
    (size_mod : size % 8 = 0) (room : area.cursor + size ≤ area.bound) :
    Divided { area with
        cursor := area.cursor + size
        memory := (Small.zero area.memory area.cursor size).store area.cursor size }
      (area.cursor :: live) (owners.carve area size) := by
  have room' : area.cursor < area.bound := by omega
  have fullSize := pieceSize_cursor room'
  have kept : Divided { area with
      memory := (Small.zero area.memory area.cursor size).store area.cursor size }
      live owners := by
    apply divided.frame_piece (divided.cursor room').1 (divided.cursor_not_chunk room')
    · intro address away
      rw [Memory.store_other _ _ (by omega), Small.zero, if_neg (by omega)]
    · exact fun notCursor => absurd ⟨rfl, room'⟩ notCursor
  exact kept.advance positive size_mod room (Memory.store_same _ _ _)

/-- The first chunk of the list becomes the current free area. -/
theorem Divided.takeChunk (divided : Divided area live owners) {chunk : Nat × Nat}
    {rest : List (Nat × Nat)} (listed : owners.chunks = chunk :: rest)
    (noCursor : ¬area.cursor < area.bound) :
    Divided { area with
        chunks := link area.memory chunk.1
        cursor := chunk.1
        bound := chunk.1 + chunk.2 } live { owners with chunks := rest } := by
  have member : chunk ∈ owners.chunks := by simp [listed]
  have inRest : ∀ other ∈ rest, other ∈ owners.chunks := by
    intro other inside
    simp [listed, inside]
  obtain ⟨word, chunk_mod, piece, _⟩ := divided.chunk chunk member
  have large := (divided.piece_large piece).1
  rw [divided.chunk_size member] at large
  have notCursor : ∀ head, ¬area.AtCursor head := fun _ atCursor => noCursor atCursor.2
  have notLive : chunk.1 ∉ live := by
    intro isLive
    have free := (divided.header chunk.1 piece (notCursor _)).2.mpr isLive
    rw [word] at free
    simp at free
  have distinct := divided.chunksDistinct
  have chain := divided.chunkChain
  rw [listed] at distinct chain
  have fresh := (List.nodup_cons.mp distinct).1
  have size : ∀ head, ({ area with
      chunks := link area.memory chunk.1
      cursor := chunk.1
      bound := chunk.1 + chunk.2 } : Small).pieceSize head = area.pieceSize head := by
    intro head
    rw [Small.pieceSize]
    split
    · rename_i atCursor
      obtain ⟨rfl, _⟩ := atCursor
      rw [divided.chunk_size member, Nat.add_sub_cancel_left]
    · rw [Small.pieceSize, if_neg (notCursor head)]
  refine ⟨divided.regions, ?_, ?_, chain.2, ?_, (List.nodup_cons.mp distinct).2,
    divided.blockChain, divided.group, divided.groupsAscending, ?_, ?_,
    divided.liveDistinct⟩
  · intro block used
    exact (divided.tiled block used).congr fun head _ => size head
  · intro _
    refine ⟨piece, ?_⟩
    dsimp only
    rw [Nat.add_sub_cancel_left]
    exact chunk_mod
  · intro other inside
    obtain ⟨otherWord, other_mod, otherPiece, _⟩ := divided.chunk other (inRest other inside)
    refine ⟨otherWord, other_mod, otherPiece, ?_⟩
    rintro ⟨same, _⟩
    exact fresh (List.mem_map.mpr ⟨other, inside, same⟩)
  · intro head headPiece _
    exact divided.header head headPiece (notCursor head)
  · intro head isLive
    refine ⟨(divided.object head isLive).1, ?_⟩
    rintro ⟨rfl, _⟩
    exact notLive isLive

def takeGroup (group : Nat × Nat) (rest : List (Nat × Nat)) : List (Nat × Nat) :=
  if group.2 = gcBlockSize then rest
  else (group.1 + gcBlockSize, group.2 - gcBlockSize) :: rest

theorem outside_takeGroup {group : Nat × Nat} {rest : List (Nat × Nat)} {block : Nat}
    (group_mod : group.1 % gcBlockSize = 0) (large : gcBlockSize ≤ group.2)
    (behind : ∀ other ∈ rest, group.1 + group.2 ≤ other.1)
    (block_mod : block % gcBlockSize = 0) :
    Outside (takeGroup group rest) block ↔
      Outside (group :: rest) block ∨ block = group.1 := by
  have apart := blocks_apart block_mod group_mod
  have positive : 0 < gcBlockSize := by decide
  simp only [Outside, List.forall_mem_cons]
  unfold takeGroup
  split
  · rename_i single
    constructor
    · intro outside
      rcases apart with rfl | before | after
      · exact .inr rfl
      · exact .inl ⟨.inl (by omega), outside⟩
      · exact .inl ⟨.inr (by omega), outside⟩
    · rintro (⟨_, outside⟩ | rfl)
      · exact outside
      · intro other member
        have := behind other member
        exact .inl (by omega)
  · rw [List.forall_mem_cons]
    dsimp only
    constructor
    · rintro ⟨first, outside⟩
      rcases apart with rfl | before | after
      · exact .inr rfl
      · exact .inl ⟨.inl (by omega), outside⟩
      · exact .inl ⟨.inr (by omega), outside⟩
    · rintro (⟨first, outside⟩ | rfl)
      · exact ⟨by omega, outside⟩
      · refine ⟨by omega, ?_⟩
        intro other member
        have := behind other member
        exact .inl (by omega)

/-- What `get_small_block` writes lies in the group it takes the block from. -/
theorem getSmallBlock_spec (divided : Divided area live owners) {group : Nat × Nat}
    {rest : List (Nat × Nat)} (listed : owners.free = group :: rest) :
    area.getSmallBlock.1 = group.1 ∧
      (∀ address, address < group.1 + gcBlockSize ∨ group.1 + group.2 ≤ address →
        area.getSmallBlock.2.memory address = area.memory address) ∧
      Chain (link area.getSmallBlock.2.memory) area.getSmallBlock.2.blocks
        ((takeGroup group rest).map Prod.fst) 0 ∧
      ∀ other ∈ takeGroup group rest,
        area.getSmallBlock.2.memory other.1 = other.2 := by
  have member : group ∈ owners.free := by simp [listed]
  have facts := divided.group_facts member
  obtain ⟨size, _, size_mod, _⟩ := divided.group group member
  have chain := divided.blockChain
  rw [listed] at chain
  obtain ⟨first, behind⟩ := chain
  have ascending := divided.groupsAscending
  rw [listed] at ascending
  have restAway := (List.pairwise_cons.mp ascending).1
  have large : ∀ other ∈ rest, gcBlockSize ≤ other.2 :=
    fun other inside => (divided.group_facts (by simp [listed, inside])).2.2
  unfold Small.getSmallBlock takeGroup
  dsimp only
  rw [first, size]
  split
  · refine ⟨rfl, fun _ _ => rfl, behind, ?_⟩
    intro other inside
    exact (divided.group other (by simp [listed, inside])).1
  · rename_i several
    have room : group.1 + gcBlockSize + 8 ≤ group.1 + group.2 := by
      unfold gcBlockSize at *
      omega
    have outside : ∀ address,
        address < group.1 + gcBlockSize ∨ group.1 + group.2 ≤ address →
        ((area.memory.store (group.1 + gcBlockSize) (group.2 - gcBlockSize)).store
          (group.1 + gcBlockSize + 4)
          (link (area.memory.store (group.1 + gcBlockSize) (group.2 - gcBlockSize))
            group.1)) address = area.memory address := by
      intro address away
      rw [Memory.store_other _ _ (by omega), Memory.store_other _ _ (by omega)]
    have oldLink : link (area.memory.store (group.1 + gcBlockSize)
        (group.2 - gcBlockSize)) group.1 = link area.memory group.1 :=
      Memory.store_other _ _ (by unfold gcBlockSize; omega)
    refine ⟨rfl, outside, ⟨rfl, ?_⟩, ?_⟩
    · have newLink : link ((area.memory.store (group.1 + gcBlockSize)
          (group.2 - gcBlockSize)).store (group.1 + gcBlockSize + 4)
          (link (area.memory.store (group.1 + gcBlockSize) (group.2 - gcBlockSize))
            group.1)) (group.1 + gcBlockSize) = link area.memory group.1 := by
        rw [oldLink]
        exact Memory.store_same _ _ _
      dsimp only
      rw [newLink]
      apply behind.congr
      intro node inRest
      obtain ⟨other, inside, rfl⟩ := List.mem_map.mp inRest
      have := restAway other inside
      exact outside _ (.inr (by omega))
    · intro other inside
      rcases List.mem_cons.mp inside with rfl | inRest
      · dsimp only
        rw [Memory.store_other _ _ (by omega), Memory.store_same]
      · exact (outside _ (.inr (restAway other inRest))).trans
          (divided.group other (by simp [listed, inRest])).1

theorem getSmallBlock_rest (area : Small) :
    area.getSmallBlock.2.regions = area.regions ∧ area.getSmallBlock.2.chunks = area.chunks := by
  unfold Small.getSmallBlock
  dsimp only
  split <;> exact ⟨rfl, rfl⟩

def Owners.takeBlock (owners : Owners) (group : Nat × Nat) (rest : List (Nat × Nat)) :
    Owners where
  layout := Function.update owners.layout group.1 [firstHeader group.1]
  chunks := owners.chunks
  free := takeGroup group rest

section

variable {group : Nat × Nat} {rest : List (Nat × Nat)}

theorem takeBlock_layout_self :
    (owners.takeBlock group rest).layout group.1 = [firstHeader group.1] :=
  Function.update_self _ _ _

theorem takeBlock_layout_other {block : Nat} (different : block ≠ group.1) :
    (owners.takeBlock group rest).layout block = owners.layout block :=
  Function.update_of_ne different _ _

theorem used_takeBlock (divided : Divided area live owners)
    (listed : owners.free = group :: rest) (block : Nat) :
    Used area.regions (owners.takeBlock group rest) block ↔
      Used area.regions owners block ∨ block = group.1 := by
  have member : group ∈ owners.free := by simp [listed]
  have facts := divided.group_facts member
  obtain ⟨_, _, _, region, inRegions, isBlock, _⟩ := divided.group group member
  have ascending := divided.groupsAscending
  rw [listed] at ascending
  have behind := (List.pairwise_cons.mp ascending).1
  constructor
  · rintro ⟨isBlock', outside⟩
    have block_mod := (isBlock'.facts divided.regions).1
    rcases (outside_takeGroup facts.1 facts.2.2 behind block_mod).mp outside with
      old | same
    · exact .inl ⟨isBlock', by rwa [listed]⟩
    · exact .inr same
  · rintro (⟨isBlock', old⟩ | rfl)
    · have block_mod := (isBlock'.facts divided.regions).1
      rw [listed] at old
      exact ⟨isBlock', (outside_takeGroup facts.1 facts.2.2 behind block_mod).mpr
        (.inl old)⟩
    · exact ⟨⟨region, inRegions, isBlock⟩,
        (outside_takeGroup facts.1 facts.2.2 behind facts.1).mpr (.inr rfl)⟩

theorem not_used_group (regions : List SmallRegion) (listed : owners.free = group :: rest)
    (large : gcBlockSize ≤ group.2) : ¬Used regions owners group.1 := by
  rintro ⟨_, outside⟩
  have := outside group (by simp [listed])
  have : 0 < gcBlockSize := by decide
  omega

theorem piece_takeBlock (divided : Divided area live owners)
    (listed : owners.free = group :: rest) (head : Nat) :
    Piece area.regions (owners.takeBlock group rest) head ↔
      Piece area.regions owners head ∨ head = firstHeader group.1 := by
  have large := (divided.group_facts (by simp [listed] : group ∈ owners.free)).2.2
  have notUsed := not_used_group area.regions listed large
  have different : ∀ {block}, Used area.regions owners block → block ≠ group.1 := by
    rintro block used rfl
    exact notUsed used
  constructor
  · rintro ⟨block, used, member⟩
    rcases (used_takeBlock divided listed block).mp used with old | rfl
    · rw [takeBlock_layout_other (different old)] at member
      exact .inl ⟨block, old, member⟩
    · rw [takeBlock_layout_self] at member
      exact .inr (List.mem_singleton.mp member)
  · rintro (⟨block, used, member⟩ | rfl)
    · refine ⟨block, (used_takeBlock divided listed block).mpr (.inl used), ?_⟩
      rw [takeBlock_layout_other (different used)]
      exact member
    · refine ⟨group.1, (used_takeBlock divided listed group.1).mpr (.inr rfl), ?_⟩
      rw [takeBlock_layout_self]
      exact List.mem_singleton_self _

theorem takeGroup_facts (divided : Divided area live owners)
    (listed : owners.free = group :: rest) :
    (takeGroup group rest).Pairwise (fun group next => group.1 + group.2 ≤ next.1) ∧
      ∀ other ∈ takeGroup group rest, 0 < other.2 ∧ other.2 % gcBlockSize = 0 ∧
        ∃ region ∈ area.regions, other.1 ∈ region.blocks ∧
          other.1 + other.2 ≤ region.stop := by
  have member : group ∈ owners.free := by simp [listed]
  have large := (divided.group_facts member).2.2
  obtain ⟨_, _, size_mod, region, inRegions, isBlock, inside⟩ := divided.group group member
  have ascending := divided.groupsAscending
  rw [listed] at ascending
  obtain ⟨behind, restAscending⟩ := List.pairwise_cons.mp ascending
  have restFacts : ∀ other ∈ rest, 0 < other.2 ∧ other.2 % gcBlockSize = 0 ∧
      ∃ region ∈ area.regions, other.1 ∈ region.blocks ∧
        other.1 + other.2 ≤ region.stop :=
    fun other inRest => (divided.group other (by simp [listed, inRest])).2
  unfold takeGroup
  split
  · exact ⟨restAscending, restFacts⟩
  · rename_i several
    have whole : group.1 + gcBlockSize + (group.2 - gcBlockSize) = group.1 + group.2 := by
      omega
    refine ⟨List.pairwise_cons.mpr ⟨?_, restAscending⟩, ?_⟩
    · intro other inRest
      rw [whole]
      exact behind other inRest
    · rw [List.forall_mem_cons]
      refine ⟨⟨by omega, ?_, region, inRegions, ?_, by rwa [whole]⟩, restFacts⟩
      · unfold gcBlockSize at *
        omega
      · rw [divided.regions.mem_blocks inRegions] at isBlock ⊢
        unfold gcBlockSize at *
        omega

/-- The first free block becomes the current free area. -/
theorem Divided.takeBlock (divided : Divided area live owners)
    (listed : owners.free = group :: rest) (noCursor : ¬area.cursor < area.bound) :
    Divided { area.getSmallBlock.2 with
        cursor := firstHeader group.1
        bound := blockBound group.1 } live (owners.takeBlock group rest) := by
  obtain ⟨_, outside, chain, sizes⟩ := getSmallBlock_spec divided listed
  obtain ⟨sameRegions, sameChunks⟩ := getSmallBlock_rest area
  have usedIff := used_takeBlock divided listed
  have pieceIff := piece_takeBlock divided listed
  have groupFacts := takeGroup_facts divided listed
  have member : group ∈ owners.free := by simp [listed]
  have facts := divided.group_facts member
  have notUsed := not_used_group area.regions listed facts.2.2
  generalize area.getSmallBlock.2 = taken at *
  obtain ⟨memory, regions, cursor, bound, chunks, blocks⟩ := taken
  dsimp only at *
  subst sameRegions sameChunks
  have notCursor : ∀ head, ¬area.AtCursor head := fun _ atCursor => noCursor atCursor.2
  have first : group.1 < firstHeader group.1 ∧
      firstHeader group.1 < blockBound group.1 ∧
      blockBound group.1 < group.1 + gcBlockSize ∧
      (blockBound group.1 - firstHeader group.1) % 8 = 0 := by
    unfold firstHeader blockBound gcBlockSize memAlign gcHead
    omega
  have away : ∀ head, Piece area.regions owners head →
      head + 8 ≤ group.1 ∨ group.1 + group.2 ≤ head := by
    intro head piece
    have := (divided.piece_large piece).1
    have := divided.piece_group_apart piece member
    omega
  have different : ∀ head, Piece area.regions owners head → head ≠ firstHeader group.1 := by
    intro head piece
    have := away head piece
    omega
  have word : ∀ head, Piece area.regions owners head → memory head = area.memory head := by
    intro head piece
    have := away head piece
    exact outside head (by omega)
  have oldSize : ∀ head, Piece area.regions owners head →
      (Small.mk memory area.regions (firstHeader group.1) (blockBound group.1)
        area.chunks blocks).pieceSize head = area.pieceSize head := by
    intro head piece
    rw [Small.pieceSize, if_neg fun atCursor => different head piece atCursor.1,
      Small.pieceSize, if_neg (notCursor head), headerSize, headerSize]
    exact congrArg maskSize (word head piece)
  refine ⟨divided.regions, ?_, ?_, ?_, ?_, divided.chunksDistinct, chain, ?_, ?_, ?_, ?_,
    divided.liveDistinct⟩
  · intro block used
    rcases (usedIff block).mp used with old | rfl
    · rw [takeBlock_layout_other (by rintro rfl; exact notUsed old)]
      exact (divided.tiled block old).congr fun head inBlock =>
        oldSize head ⟨block, old, inBlock⟩
    · have size : (Small.mk memory area.regions (firstHeader group.1)
          (blockBound group.1) area.chunks blocks).pieceSize (firstHeader group.1) = blockBound group.1 - firstHeader group.1 :=
        if_pos ⟨rfl, first.2.1⟩
      rw [takeBlock_layout_self]
      refine ⟨rfl, by rw [size]; omega, ?_⟩
      rw [Tiles.nil_iff, size]
      omega
  · intro _
    exact ⟨(pieceIff _).mpr (.inr rfl), first.2.2.2⟩
  · apply divided.chunkChain.congr
    intro node inChunks
    obtain ⟨chunk, isChunk, rfl⟩ := List.mem_map.mp inChunks
    have := away chunk.1 (divided.chunk chunk isChunk).2.2.1
    exact outside _ (by omega)
  · intro chunk isChunk
    obtain ⟨chunkWord, chunk_mod, piece, _⟩ := divided.chunk chunk isChunk
    exact ⟨(word _ piece).trans chunkWord, chunk_mod, (pieceIff _).mpr (.inl piece),
      fun atCursor => different _ piece atCursor.1⟩
  · exact fun other isGroup => ⟨sizes other isGroup, groupFacts.2 other isGroup⟩
  · exact groupFacts.1
  · intro head piece notHere
    rcases (pieceIff head).mp piece with old | rfl
    · have facts := divided.header head old (notCursor head)
      dsimp only
      rw [word head old]
      exact facts
    · exact absurd ⟨rfl, first.2.1⟩ notHere
  · intro head isLive
    have piece := (divided.object head isLive).1
    exact ⟨(pieceIff _).mpr (.inl piece), fun atCursor => different _ piece atCursor.1⟩

end

end

end LaTTe.Gc
