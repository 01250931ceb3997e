import LaTTe.Gc.Small.Malloc

namespace LaTTe.Gc

open LaTTe.Data

/-! Before a collection the block usage tables are set from the free blocks list. -/

namespace SmallRegion

theorem blockUsed_eq (region : SmallRegion) (pos : Nat) :
    region.blockUsed pos = (region.table (pos / 32)).getLsbD (pos % 32) := by
  have below : pos % 32 < 32 := Nat.mod_lt _ (by decide)
  rw [blockUsed, ← BitVec.twoPow_eq, BitVec.and_twoPow]
  cases bit : (region.table (pos / 32)).getLsbD (pos % 32) with
  | false => simp
  | true =>
      have nonzero : BitVec.twoPow 32 (pos % 32) ≠ 0#32 := by
        intro zero
        have bit := congrArg (·.getLsbD (pos % 32)) zero
        simp [below] at bit
      simpa using nonzero

theorem blockUsed_fillTable (region : SmallRegion) {pos : Nat}
    (below : pos < gcRegionSize / gcBlockSize) : region.fillTable.blockUsed pos = true := by
  have inTable : pos / 32 < gcRegionSize / (gcBlockSize * 8) / 4 := by
    unfold gcRegionSize gcBlockSize at *
    omega
  rw [blockUsed_eq, fillTable]
  dsimp only
  rw [if_pos inTable]
  rw [BitVec.getLsbD_allOnes]
  exact decide_eq_true (Nat.mod_lt pos (by decide))

theorem blockUsed_clearBlock (region : SmallRegion) (cleared pos : Nat) :
    (region.clearBlock cleared).blockUsed pos =
      (region.blockUsed pos && decide (pos ≠ cleared)) := by
  have below : pos % 32 < 32 := Nat.mod_lt _ (by decide)
  rw [blockUsed_eq, blockUsed_eq, clearBlock]
  dsimp only
  rw [setEntry]
  by_cases sameWord : pos / 32 = cleared / 32
  · rw [if_pos sameWord, ← BitVec.twoPow_eq, sameWord]
    have sameBit : pos = cleared ↔ pos % 32 = cleared % 32 := by omega
    simp [below, sameBit, eq_comm]
  · rw [if_neg sameWord]
    have different : pos ≠ cleared := fun same => sameWord (by rw [same])
    simp [different]

theorem clearGroup_bounds (region : SmallRegion) (block size : Nat) :
    (region.clearGroup block size).start = region.start ∧
      (region.clearGroup block size).stop = region.stop := by
  unfold clearGroup
  generalize (List.range ((size + (gcBlockSize - 1)) / gcBlockSize)).map (· * gcBlockSize) =
    offsets
  induction offsets generalizing region with
  | nil => exact ⟨rfl, rfl⟩
  | cons offset rest ih => exact ih _

private theorem blockUsed_clearOffsets (region : SmallRegion) (block pos : Nat)
    (offsets : List Nat) :
    (offsets.foldl (fun region i => region.clearBlock (region.blockPos (block + i)))
        region).blockUsed pos =
      (region.blockUsed pos &&
        decide (∀ i ∈ offsets, pos ≠ region.blockPos (block + i))) := by
  induction offsets generalizing region with
  | nil => simp
  | cons offset rest ih =>
      rw [List.foldl_cons, ih, blockUsed_clearBlock]
      have samePos : ∀ p, (region.clearBlock (region.blockPos (block + offset))).blockPos p =
          region.blockPos p := fun _ => rfl
      simp only [samePos, List.forall_mem_cons, Bool.decide_and, Bool.and_assoc]

theorem blockUsed_clearGroup (region : SmallRegion) {block size other : Nat}
    (start_mod : region.start % gcBlockSize = 0) (block_mod : block % gcBlockSize = 0)
    (size_mod : size % gcBlockSize = 0) (other_mod : other % gcBlockSize = 0)
    (start_le : region.start ≤ block) (start_le' : region.start ≤ other) :
    (region.clearGroup block size).blockUsed (region.blockPos other) =
      (region.blockUsed (region.blockPos other) &&
        decide (other < block ∨ block + size ≤ other)) := by
  rw [clearGroup, blockUsed_clearOffsets]
  congr 1
  apply decide_eq_decide.mpr
  unfold blockPos gcBlockSize at *
  simp only [List.mem_map, List.mem_range]
  constructor
  · intro noOffset
    by_contra inside
    exact noOffset (other - block) ⟨(other - block) / 4096, by omega, by omega⟩ (by omega)
  · rintro outside i ⟨index, below, rfl⟩
    omega

end SmallRegion

section

variable {memory : Memory} {region : SmallRegion}

theorem setTable_loop {groups : List (Nat × Nat)} {fuel block after : Nat}
    (enough : groups.length ≤ fuel)
    (chain : Chain (link memory) block (groups.map Prod.fst) after)
    (sizes : ∀ group ∈ groups, memory group.1 = group.2)
    (inside : ∀ group ∈ groups, region.start ≤ group.1 ∧ group.1 < region.stop)
    (outside : ¬(region.start ≤ after ∧ after < region.stop)) :
    whileLoop
        (fun state => decide (state.1.start ≤ state.2 ∧ state.2 < state.1.stop))
        (fun state =>
          some (state.1.clearGroup state.2 (memory state.2), link memory state.2))
        fuel (region, block) =
      some (groups.foldl (fun region group => region.clearGroup group.1 group.2) region,
        after) := by
  induction groups generalizing fuel region block with
  | nil =>
      obtain rfl : block = after := chain
      cases fuel <;> simp [whileLoop, outside]
  | cons group rest ih =>
      obtain ⟨rfl, behind⟩ := chain
      obtain ⟨fuel, rfl⟩ : ∃ n, fuel = n + 1 := ⟨fuel - 1, by simp at enough; omega⟩
      have here := inside group (by simp)
      have bounds := region.clearGroup_bounds group.1 group.2
      rw [whileLoop, if_pos (by simpa using here)]
      dsimp only
      rw [sizes group (by simp)]
      apply ih (Nat.le_of_succ_le_succ enough) behind
      · exact fun other member => sizes other (by simp [member])
      · intro other member
        rw [bounds.1, bounds.2]
        exact inside other (by simp [member])
      · rw [bounds.1, bounds.2]
        exact outside

theorem groups_length {groups : List (Nat × Nat)} {lo stop : Nat}
    (ascending : groups.Pairwise fun group next => group.1 + group.2 ≤ next.1)
    (large : ∀ group ∈ groups, gcBlockSize ≤ group.2)
    (inside : ∀ group ∈ groups, lo ≤ group.1 ∧ group.1 + group.2 ≤ stop) (le : lo ≤ stop) :
    lo + groups.length * gcBlockSize ≤ stop := by
  induction groups generalizing lo with
  | nil => simpa using le
  | cons group rest ih =>
      obtain ⟨behind, restAscending⟩ := List.pairwise_cons.mp ascending
      have here := inside group (by simp)
      have size := large group (by simp)
      have := ih restAscending (fun other member => large other (by simp [member]))
        (fun other member => ⟨behind other member, (inside other (by simp [member])).2⟩)
        here.2
      rw [List.length_cons, Nat.add_mul]
      omega

theorem blockUsed_clearGroups (region : SmallRegion) {groups : List (Nat × Nat)} {block : Nat}
    (start_mod : region.start % gcBlockSize = 0) (block_mod : block % gcBlockSize = 0)
    (start_le : region.start ≤ block)
    (aligned : ∀ group ∈ groups, group.1 % gcBlockSize = 0 ∧ group.2 % gcBlockSize = 0 ∧
      region.start ≤ group.1) :
    (groups.foldl (fun region group => region.clearGroup group.1 group.2)
        region).blockUsed (region.blockPos block) = true ↔
      region.blockUsed (region.blockPos block) = true ∧ Outside groups block := by
  induction groups generalizing region with
  | nil => simp [Outside]
  | cons group rest ih =>
      obtain ⟨group_mod, size_mod, group_start⟩ := aligned group (by simp)
      have bounds := region.clearGroup_bounds group.1 group.2
      have samePos : (region.clearGroup group.1 group.2).blockPos block =
          region.blockPos block := by
        rw [SmallRegion.blockPos, SmallRegion.blockPos, bounds.1]
      rw [List.foldl_cons, ← samePos, ih, samePos,
        region.blockUsed_clearGroup start_mod group_mod size_mod block_mod group_start
          start_le]
      · simp only [Outside, List.forall_mem_cons, Bool.and_eq_true, decide_eq_true_eq,
          and_assoc]
      · rw [bounds.1]
        exact start_mod
      · rw [bounds.1]
        exact start_le
      · intro other member
        rw [bounds.1]
        exact aligned other (by simp [member])

def GroupIn (region : SmallRegion) (group : Nat × Nat) : Prop :=
  group.1 ∈ region.blocks ∧ group.1 + group.2 ≤ region.stop

/-- The groups of the first region come first. -/
theorem split_groups {regions : List SmallRegion} {free : List (Nat × Nat)}
    (ok : RegionsOk (region :: regions))
    (ascending : free.Pairwise fun group next => group.1 + group.2 ≤ next.1)
    (inRegions : ∀ group ∈ free, ∃ other ∈ region :: regions, GroupIn other group) :
    ∃ groups others, free = groups ++ others ∧ (∀ group ∈ groups, GroupIn region group) ∧
      ∀ group ∈ others, ∃ other ∈ regions, GroupIn other group := by
  induction free with
  | nil => exact ⟨[], [], rfl, by simp, by simp⟩
  | cons group rest ih =>
      obtain ⟨behind, restAscending⟩ := List.pairwise_cons.mp ascending
      have inRest : ∀ other ∈ rest, ∃ home ∈ region :: regions, GroupIn home other :=
        fun other member => inRegions other (by simp [member])
      by_cases here : GroupIn region group
      · obtain ⟨groups, others, rfl, first, second⟩ := ih restAscending inRest
        exact ⟨group :: groups, others, rfl, by simpa [here] using first, second⟩
      · refine ⟨[], group :: rest, rfl, by simp, ?_⟩
        obtain ⟨home, homeMember, inHome⟩ := inRegions group (by simp)
        have homeLater : home ∈ regions := by
          rcases List.mem_cons.mp homeMember with rfl | later
          · exact absurd inHome here
          · exact later
        -- whatever follows lies behind the first region as well
        have above : region.stop ≤ group.1 := by
          have ordered := (List.pairwise_cons.mp ok.ascending).1 home homeLater
          have inside := (ok.mem_blocks homeMember).mp inHome.1
          omega
        intro other member
        rcases List.mem_cons.mp member with rfl | inTail
        · exact ⟨home, homeLater, inHome⟩
        · obtain ⟨otherHome, otherMember, inOther⟩ := inRest other inTail
          rcases List.mem_cons.mp otherMember with rfl | later
          · have inside := (ok.mem_blocks otherMember).mp inOther.1
            have := behind other inTail
            have : 0 < gcBlockSize := by decide
            omega
          · exact ⟨otherHome, later, inOther⟩

def TableSet (free : List (Nat × Nat)) (region after : SmallRegion) : Prop :=
  after.start = region.start ∧ after.stop = region.stop ∧
    ∀ block ∈ region.blocks,
      (after.blockUsed (region.blockPos block) = true ↔ Outside free block)

theorem setTable_spec {regions : List SmallRegion} (ok : RegionsOk regions)
    (member : region ∈ regions) {groups : List (Nat × Nat)} {block after : Nat}
    (chain : Chain (link memory) block (groups.map Prod.fst) after)
    (ascending : groups.Pairwise fun group next => group.1 + group.2 ≤ next.1)
    (sizes : ∀ group ∈ groups, memory group.1 = group.2 ∧ 0 < group.2 ∧
      group.2 % gcBlockSize = 0)
    (inside : ∀ group ∈ groups, GroupIn region group)
    (outside : ¬(region.start ≤ after ∧ after < region.stop)) :
    ∃ region', region.setTable memory block = some (region', after) ∧
      TableSet groups region region' := by
  have whole := ok.whole region member
  have aligned := ok.aligned region member
  have positive : 0 < gcBlockSize := by decide
  have facts : ∀ group ∈ groups, group.1 % gcBlockSize = 0 ∧ region.start ≤ group.1 ∧
      group.1 + gcBlockSize ≤ region.stop :=
    fun group inGroups => (ok.mem_blocks member).mp (inside group inGroups).1
  have large : ∀ group ∈ groups, gcBlockSize ≤ group.2 := by
    intro group inGroups
    have := sizes group inGroups
    unfold gcBlockSize at *
    omega
  have count := groups_length ascending large
    (fun group inGroups => ⟨(facts group inGroups).2.1, (inside group inGroups).2⟩)
    (by omega)
  have fuel : groups.length ≤ gcRegionSize / gcBlockSize := by
    rw [Nat.le_div_iff_mul_le positive]
    omega
  have bounds : ∀ (list : List (Nat × Nat)) (start : SmallRegion),
      (list.foldl (fun region group => region.clearGroup group.1 group.2) start).start =
          start.start ∧
        (list.foldl (fun region group => region.clearGroup group.1 group.2) start).stop =
          start.stop := by
    intro list
    induction list with
    | nil => exact fun _ => ⟨rfl, rfl⟩
    | cons group rest ih =>
        intro start
        have step := start.clearGroup_bounds group.1 group.2
        rw [List.foldl_cons, (ih _).1, (ih _).2]
        exact step
  refine ⟨_, setTable_loop fuel chain (fun group inGroups => (sizes group inGroups).1) ?_
    outside, (bounds _ _).1, (bounds _ _).2, ?_⟩
  · intro group inGroups
    obtain ⟨_, start_le, le_stop⟩ := facts group inGroups
    exact ⟨start_le, Nat.lt_of_lt_of_le (Nat.lt_add_of_pos_right positive) le_stop⟩
  · intro other inRegion
    have inBlock := (ok.mem_blocks member).mp inRegion
    have used := blockUsed_clearGroups region.fillTable aligned inBlock.1
      inBlock.2.1 (fun group inGroups => ⟨(facts group inGroups).1,
        (sizes group inGroups).2.2, (facts group inGroups).2.1⟩)
    have filled : region.fillTable.blockUsed (region.blockPos other) = true := by
      apply region.blockUsed_fillTable
      unfold SmallRegion.blockPos gcRegionSize gcBlockSize at *
      omega
    rw [show region.fillTable.blockPos other = region.blockPos other from rfl] at used
    rw [used, filled]
    simp

theorem setTables_spec {regions : List SmallRegion} {free : List (Nat × Nat)} {block : Nat}
    (all : List (Nat × Nat)) (ok : RegionsOk regions)
    (relevant : ∀ region ∈ regions, ∀ block ∈ region.blocks,
      (Outside all block ↔ Outside free block))
    (chain : Chain (link memory) block (free.map Prod.fst) 0)
    (ascending : free.Pairwise fun group next => group.1 + group.2 ≤ next.1)
    (sizes : ∀ group ∈ free, memory group.1 = group.2 ∧ 0 < group.2 ∧
      group.2 % gcBlockSize = 0)
    (inRegions : ∀ group ∈ free, ∃ region ∈ regions, GroupIn region group) :
    ∃ regions', Small.setTables memory regions block = some regions' ∧
      List.Forall₂ (TableSet all) regions regions' := by
  induction regions generalizing free block with
  | nil => exact ⟨[], rfl, .nil⟩
  | cons region rest ih =>
      obtain ⟨groups, others, rfl, first, second⟩ := split_groups ok ascending inRegions
      obtain ⟨groupsAscending, othersAscending, _⟩ := List.pairwise_append.mp ascending
      rw [List.map_append, Chain.append_iff] at chain
      obtain ⟨after, before, behind⟩ := chain
      have okRest : RegionsOk rest :=
        ⟨fun other member => ok.aligned other (by simp [member]),
          fun other member => ok.whole other (by simp [member]),
          fun other member => ok.bounds other (by simp [member]),
          (List.pairwise_cons.mp ok.ascending).2⟩
      have later : ∀ group ∈ others, region.stop ≤ group.1 := by
        intro group member
        obtain ⟨home, inRest, inHome⟩ := second group member
        have ordered := (List.pairwise_cons.mp ok.ascending).1 home inRest
        have inside := (okRest.mem_blocks inRest).mp inHome.1
        omega
      have outside : ¬(region.start ≤ after ∧ after < region.stop) := by
        cases others with
        | nil =>
            obtain rfl : after = 0 := behind
            have := (ok.bounds region (by simp)).1
            omega
        | cons group more =>
            obtain rfl : after = group.1 := behind.1
            have := later group (by simp)
            omega
      obtain ⟨region', set, table⟩ := setTable_spec ok (by simp) before groupsAscending
        (fun group member => sizes group (by simp [member])) first outside
      have relevantRest : ∀ other ∈ rest, ∀ block ∈ other.blocks,
          (Outside all block ↔ Outside others block) := by
        intro other member block inOther
        rw [relevant other (by simp [member]) block inOther]
        have ordered := (List.pairwise_cons.mp ok.ascending).1 other member
        have inside := (okRest.mem_blocks member).mp inOther
        constructor
        · exact fun outsideAll group inOthers => outsideAll group (by simp [inOthers])
        · intro outsideOthers group inFree
          rcases List.mem_append.mp inFree with inGroups | inOthers
          · have := (first group inGroups).2
            exact .inr (by omega)
          · exact outsideOthers group inOthers
      obtain ⟨rest', setRest, tables⟩ := ih okRest relevantRest behind othersAscending
        (fun group member => sizes group (by simp [member])) second
      refine ⟨region' :: rest', by simp [Small.setTables, set, setRest], .cons ?_ tables⟩
      · refine ⟨table.1, table.2.1, ?_⟩
        intro block inRegion
        rw [table.2.2 block inRegion, relevant region (by simp) block inRegion]
        have inside := (ok.mem_blocks (by simp)).mp inRegion
        have positive : 0 < gcBlockSize := by decide
        constructor
        · intro outsideGroups group member
          rcases List.mem_append.mp member with inGroups | inOthers
          · exact outsideGroups group inGroups
          · have := later group inOthers
            exact .inl (by omega)
        · exact fun outsideAll group member => outsideAll group (by simp [member])

def regionBounds (regions : List SmallRegion) : List (Nat × Nat) :=
  regions.map fun region => (region.start, region.stop)

theorem TableSet.regionBounds {free : List (Nat × Nat)} {regions regions' : List SmallRegion}
    (tables : List.Forall₂ (TableSet free) regions regions') :
    regionBounds regions' = regionBounds regions := by
  induction tables with
  | nil => rfl
  | cons table _ ih =>
      rw [Gc.regionBounds, List.map_cons, table.1, table.2.1]
      exact congrArg _ ih

theorem TableSet.of_mem {free : List (Nat × Nat)} {regions regions' : List SmallRegion}
    (tables : List.Forall₂ (TableSet free) regions regions') {region' : SmallRegion}
    (member : region' ∈ regions') : ∃ region, TableSet free region region' := by
  induction tables with
  | nil => simp at member
  | cons table _ ih =>
      rcases List.mem_cons.mp member with rfl | later
      · exact ⟨_, table⟩
      · exact ih later

section

variable {regions regions' : List SmallRegion}
  (same : regionBounds regions' = regionBounds regions)

include same

theorem exists_sameBounds (member : region ∈ regions) :
    ∃ region' ∈ regions', region'.start = region.start ∧ region'.stop = region.stop ∧
      region'.blocks = region.blocks := by
  have inBounds : (region.start, region.stop) ∈ regionBounds regions' := by
    rw [same]
    exact List.mem_map.mpr ⟨region, member, rfl⟩
  obtain ⟨region', member', equal⟩ := List.mem_map.mp inBounds
  obtain ⟨start_eq, stop_eq⟩ := Prod.mk.inj equal
  refine ⟨region', member', start_eq, stop_eq, ?_⟩
  rw [SmallRegion.blocks, start_eq, stop_eq, SmallRegion.blocks]

theorem isBlock_sameBounds (block : Nat) : IsBlock regions' block ↔ IsBlock regions block := by
  constructor
  · rintro ⟨region', member, inRegion⟩
    obtain ⟨region, member', _, _, blocks⟩ := exists_sameBounds same.symm member
    exact ⟨region, member', by rwa [blocks]⟩
  · rintro ⟨region, member, inRegion⟩
    obtain ⟨region', member', _, _, blocks⟩ := exists_sameBounds same member
    exact ⟨region', member', by rwa [blocks]⟩

theorem RegionsOk.sameBounds (ok : RegionsOk regions) : RegionsOk regions' := by
  have back : ∀ region' ∈ regions', ∃ region ∈ regions,
      region.start = region'.start ∧ region.stop = region'.stop := by
    intro region' member
    obtain ⟨region, member', start_eq, stop_eq, _⟩ := exists_sameBounds same.symm member
    exact ⟨region, member', start_eq, stop_eq⟩
  refine ⟨?_, ?_, ?_, ?_⟩
  · intro region' member
    obtain ⟨region, old, start_eq, _⟩ := back region' member
    rw [← start_eq]
    exact ok.aligned region old
  · intro region' member
    obtain ⟨region, old, start_eq, stop_eq⟩ := back region' member
    rw [← start_eq, ← stop_eq]
    exact ok.whole region old
  · intro region' member
    obtain ⟨region, old, start_eq, stop_eq⟩ := back region' member
    rw [← start_eq, ← stop_eq]
    exact ok.bounds region old
  · have ascending : (regionBounds regions).Pairwise fun bounds next => bounds.2 ≤ next.1 :=
      List.pairwise_map.mpr ok.ascending
    rw [← same] at ascending
    exact List.pairwise_map.mp ascending

theorem Divided.setRegions {area : Small} {live : List Nat} {owners : Owners}
    (sameArea : area.regions = regions) (divided : Divided area live owners) :
    Divided { area with regions := regions' } live owners := by
  subst sameArea
  have used : ∀ block, Used regions' owners block ↔ Used area.regions owners block :=
    fun block => and_congr_left fun _ => isBlock_sameBounds same block
  have piece : ∀ head, Piece regions' owners head ↔ Piece area.regions owners head :=
    fun head => exists_congr fun block => and_congr_left fun _ => used block
  refine ⟨divided.regions.sameBounds same, ?_, ?_, divided.chunkChain, ?_,
    divided.chunksDistinct, divided.blockChain, ?_, divided.groupsAscending, ?_, ?_,
    divided.liveDistinct⟩
  · exact fun block isUsed => divided.tiled block ((used block).mp isUsed)
  · exact fun room => ⟨(piece _).mpr (divided.cursor room).1, (divided.cursor room).2⟩
  · intro chunk member
    obtain ⟨word, size_mod, isPiece, notCursor⟩ := divided.chunk chunk member
    exact ⟨word, size_mod, (piece _).mpr isPiece, notCursor⟩
  · intro group member
    obtain ⟨size, positive, size_mod, region, inRegions, inRegion, inside⟩ :=
      divided.group group member
    obtain ⟨region', member', _, stop_eq, blocks⟩ := exists_sameBounds same inRegions
    exact ⟨size, positive, size_mod, region', member', by rwa [blocks], by rwa [stop_eq]⟩
  · exact fun head isPiece => divided.header head ((piece head).mp isPiece)
  · exact fun head member =>
      ⟨(piece head).mpr (divided.object head member).1, (divided.object head member).2⟩

end

structure Prepared (area : Small) (live : List Nat) (owners : Owners) : Prop where
  divided : Divided area live owners
  cursor : area.cursor = 0
  bound : area.bound = 0
  tables : ∀ region ∈ area.regions, ∀ block ∈ region.blocks,
    (region.blockUsed (region.blockPos block) = true ↔ Outside owners.free block)

theorem Divided.prepareGcSmall {area : Small} {live : List Nat} {owners : Owners}
    (divided : Divided area live owners) :
    ∃ prepared, area.prepareGcSmall = some prepared ∧ Prepared prepared live owners ∧
      Intact area.memory prepared.memory live ∧
      regionBounds prepared.regions = regionBounds area.regions := by
  have closed := divided.closeCursor.dropCursor (closeCursor_closed area)
  obtain ⟨regions', set, tables⟩ := setTables_spec owners.free closed.regions
    (fun _ _ _ _ => Iff.rfl) closed.blockChain closed.groupsAscending
    (fun group member => ⟨(closed.group group member).1, (closed.group group member).2.1,
      (closed.group group member).2.2.1⟩)
    (fun group member => (closed.group group member).2.2.2)
  have same := TableSet.regionBounds tables
  have kept : area.closeCursor.regions = area.regions := by
    unfold Small.closeCursor
    split <;> rfl
  refine ⟨_, ?_, ⟨closed.setRegions same rfl, rfl, rfl, ?_⟩, divided.closeCursor_intact,
    same.trans (congrArg Gc.regionBounds kept)⟩
  · simp only [Small.prepareGcSmall]
    dsimp only at set
    rw [set]
    rfl
  · intro region' member block inRegion
    obtain ⟨region, start_eq, stop_eq, table⟩ := TableSet.of_mem tables member
    have blocks : region'.blocks = region.blocks := by
      rw [SmallRegion.blocks, start_eq, stop_eq, SmallRegion.blocks]
    have pos : region'.blockPos block = region.blockPos block := by
      rw [SmallRegion.blockPos, start_eq, SmallRegion.blockPos]
    rw [pos]
    exact table block (by rwa [blocks] at inRegion)

end

end LaTTe.Gc
