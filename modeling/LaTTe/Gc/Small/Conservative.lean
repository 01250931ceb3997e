import LaTTe.Gc.Small.Prepare

namespace LaTTe.Gc

open LaTTe.Data

/-! The test for pointers into the small object area that conservative marking uses. -/

def nextHeader (memory : Memory) (header : Nat) : Option Nat :=
  let size := headerSize memory header
  if 0 < size ∧ size % memAlign = 0 then some (header + size) else none

/-- The walk from the first header of the block up to the header in front of `p`. -/
def walkHeaders (memory : Memory) (p : Nat) : Option Nat :=
  whileLoop (fun header => decide (header < p - gcHead)) (nextHeader memory) gcBlockSize
    (firstHeader (roundDownBlockSize p))

/-- `is_small_object`.  The result is `none` when an assertion fails. -/
def isSmallObject (memory : Memory) (region : SmallRegion) (p : Nat) : Option Bool :=
  if p = 0 ∨ p % memAlign ≠ 0 then
    some false
  else if region.blockUsed (region.blockPos p) then
    (walkHeaders memory p).map fun header =>
      decide (header = p - gcHead) && !hasFlag (memory header) .free
  else
    some false

section

variable {memory : Memory} {area : Small} {live : List Nat} {owners : Owners}

/-- The walk stops at a tile or at the end of the tiles, and it does not miss a tile. -/
theorem nextHeader_loop {bound first stop fuel : Nat} {headers : List Nat}
    (tiled : Tiles (headerSize memory) first headers stop) (enough : headers.length ≤ fuel)
    (inside : bound < stop) :
    ∃ final, whileLoop (fun header => decide (header < bound)) (nextHeader memory) fuel first =
        some final ∧ first ≤ final ∧ final ≤ stop ∧ (final = bound ↔ bound ∈ headers) := by
  induction headers generalizing first fuel with
  | nil =>
      obtain rfl : first = stop := tiled
      have stops : ¬first < bound := Nat.not_lt.mpr inside.le
      refine ⟨first, ?_, le_refl first, le_refl first, ?_⟩
      · cases fuel <;> simp [whileLoop, stops]
      · simpa using inside.ne'
  | cons tile rest ih =>
      obtain ⟨rfl, positive, behind⟩ := tiled
      obtain ⟨fuel, rfl⟩ := Nat.exists_eq_succ_of_ne_zero (Nat.ne_zero_of_lt enough)
      rcases Nat.lt_or_ge tile bound with more | done
      · have round : nextHeader memory tile = some (tile + headerSize memory tile) :=
          if_pos ⟨positive, headerSize_mod memory tile⟩
        obtain ⟨final, loop, after, before, found⟩ :=
          ih behind (Nat.le_of_succ_le_succ enough)
        refine ⟨final, ?_, by omega, before, ?_⟩
        · rw [whileLoop, if_pos (decide_eq_true more), round]
          exact loop
        · rw [found, List.mem_cons, or_iff_right more.ne']
      · refine ⟨tile, ?_, le_refl tile, ?_, ?_⟩
        · rw [whileLoop, if_neg (by simpa using done)]
        · have := behind.le
          omega
        · constructor
          · rintro rfl
            exact List.mem_cons_self
          · intro member
            rcases List.mem_cons.mp member with same | later
            · exact same.symm
            · have := (behind.mem_bounds later).1
              omega

theorem headers_length {block : Nat} {headers : List Nat}
    (tiled : BlockTiled memory block headers) : headers.length ≤ gcBlockSize := by
  have := Tiles.length_le tiled
  unfold firstHeader blockBound gcBlockSize memAlign gcHead at *
  omega

theorem Prepared.blockTiled (prepared : Prepared area live owners) {block : Nat}
    (used : Used area.regions owners block) :
    BlockTiled area.memory block (owners.layout block) := by
  refine (prepared.divided.tiled block used).congr fun head _ => ?_
  have noCursor : ¬area.AtCursor head := by
    rintro ⟨_, room⟩
    rw [prepared.cursor, prepared.bound] at room
    exact absurd room (lt_irrefl 0)
  exact (if_neg noCursor).symm

theorem Divided.object_block (divided : Divided area live owners) {head : Nat}
    (member : head ∈ live) :
    head % memAlign = 4 ∧ Used area.regions owners (roundDownBlockSize (head + gcHead)) ∧
      head ∈ owners.layout (roundDownBlockSize (head + gcHead)) := by
  obtain ⟨⟨block, used, inBlock⟩, _⟩ := divided.object head member
  obtain ⟨low, size, high, aligned⟩ := divided.piece_bounds used inBlock
  have block_mod := (used.1.facts divided.regions).1
  have rounded : roundDownBlockSize (head + gcHead) = block := by
    unfold roundDownBlockSize firstHeader blockBound gcBlockSize memAlign gcHead at *
    omega
  rw [rounded]
  exact ⟨aligned, used, inBlock⟩

theorem RegionsOk.roundDown_mem {regions : List SmallRegion} {region : SmallRegion} {p : Nat}
    (ok : RegionsOk regions) (member : region ∈ regions) (low : region.start ≤ p)
    (high : p < region.stop) :
    roundDownBlockSize p ∈ region.blocks ∧
      region.blockPos p = region.blockPos (roundDownBlockSize p) := by
  have whole := ok.whole region member
  have aligned := ok.aligned region member
  rw [ok.mem_blocks member]
  unfold roundDownBlockSize SmallRegion.blockPos gcBlockSize gcRegionSize at *
  omega

theorem Prepared.walked (prepared : Prepared area live owners) {p : Nat}
    (aligned : p % memAlign = 0)
    (used : Used area.regions owners (roundDownBlockSize p)) :
    ∃ header, walkHeaders area.memory p = some header ∧
      firstHeader (roundDownBlockSize p) ≤ header ∧
      header ≤ blockBound (roundDownBlockSize p) ∧
      (header = p - gcHead ↔ p - gcHead ∈ owners.layout (roundDownBlockSize p)) := by
  have tiled := prepared.blockTiled used
  apply nextHeader_loop tiled (headers_length tiled)
  unfold roundDownBlockSize blockBound gcBlockSize memAlign gcHead at *
  omega

theorem nextHeader_markHeaders (memory : Memory) (marked : List Nat) :
    nextHeader (Small.markHeaders memory marked) = nextHeader memory := by
  funext header
  have same : headerSize (Small.markHeaders memory marked) header = headerSize memory header := by
    unfold headerSize Small.markHeaders
    split
    · exact maskSize_setFlag _ _
    · rfl
  rw [nextHeader, nextHeader, same]

theorem walkHeaders_markHeaders (memory : Memory) (marked : List Nat) (p : Nat) :
    walkHeaders (Small.markHeaders memory marked) p = walkHeaders memory p := by
  rw [walkHeaders, walkHeaders, nextHeader_markHeaders]

theorem isSmallObject_markHeaders (memory : Memory) (marked : List Nat) (region : SmallRegion)
    (p : Nat) :
    isSmallObject (Small.markHeaders memory marked) region p = isSmallObject memory region p := by
  have free : ∀ header, hasFlag (Small.markHeaders memory marked header) .free =
      hasFlag (memory header) .free := by
    intro header
    unfold Small.markHeaders
    split
    · simp [hasFlag_setFlag]
    · rfl
  simp only [isSmallObject, walkHeaders_markHeaders, free]

/-- The test accepts the objects and nothing else. -/
theorem Prepared.tested (prepared : Prepared area live owners) {region : SmallRegion}
    (member : region ∈ area.regions) {p : Nat} (low : region.start ≤ p)
    (high : p < region.stop) :
    ∃ answer, isSmallObject area.memory region p = some answer ∧
      (answer = true ↔ ∃ head ∈ live, p = head + gcHead) := by
  have ok := prepared.divided.regions
  have positive : p ≠ 0 := by
    have := (ok.bounds region member).1
    omega
  obtain ⟨inRegion, position⟩ := ok.roundDown_mem member low high
  have table := prepared.tables region member _ inRegion
  rw [← position] at table
  unfold isSmallObject
  by_cases aligned : p % memAlign = 0
  · rw [if_neg (by simp [positive, aligned])]
    cases bit : region.blockUsed (region.blockPos p) with
    | false =>
        refine ⟨false, by rw [if_neg (by simp)], ?_⟩
        simp only [Bool.false_eq_true, false_iff]
        rintro ⟨head, isLive, rfl⟩
        have used := (prepared.divided.object_block isLive).2.1
        rw [table.mpr used.2] at bit
        cases bit
    | true =>
        have used : Used area.regions owners (roundDownBlockSize p) :=
          ⟨⟨region, member, inRegion⟩, table.mp bit⟩
        obtain ⟨header, walk, _, _, found⟩ := prepared.walked aligned used
        refine ⟨_, by rw [if_pos rfl, walk]; rfl, ?_⟩
        rw [Bool.and_eq_true, decide_eq_true_eq, Bool.not_eq_true']
        constructor
        · rintro ⟨rfl, notFree⟩
          have piece : Piece area.regions owners (p - gcHead) := ⟨_, used, found.mp rfl⟩
          have noCursor : ¬area.AtCursor (p - gcHead) := by
            rintro ⟨_, room⟩
            rw [prepared.cursor, prepared.bound] at room
            exact absurd room (lt_irrefl 0)
          refine ⟨p - gcHead, (prepared.divided.header _ piece noCursor).2.mp notFree, ?_⟩
          unfold memAlign gcHead at *
          omega
        · rintro ⟨head, isLive, rfl⟩
          have inBlock := (prepared.divided.object_block isLive).2.2
          obtain ⟨piece, noCursor⟩ := prepared.divided.object head isLive
          rw [Nat.add_sub_cancel] at found
          obtain rfl := found.mpr inBlock
          exact ⟨(Nat.add_sub_cancel _ _).symm,
            (prepared.divided.header _ piece noCursor).2.mpr isLive⟩
  · refine ⟨false, by rw [if_pos (.inr aligned)], ?_⟩
    simp only [Bool.false_eq_true, false_iff]
    rintro ⟨head, isLive, rfl⟩
    have := (prepared.divided.object_block isLive).1
    unfold memAlign gcHead at *
    omega

/-- Before and during the mark phase a word that points into a region is taken for an object
exactly if it is the address of one, and the walk over the headers ends inside the block. -/
theorem is_small_object_exact (divided : Divided area live owners) :
    ∃ prepared, area.prepareGcSmall = some prepared ∧
      regionBounds prepared.regions = regionBounds area.regions ∧
      ∀ marked, ∀ region ∈ prepared.regions, ∀ p, region.start ≤ p → p < region.stop →
        (∃ answer, isSmallObject (Small.markHeaders prepared.memory marked) region p =
            some answer ∧ (answer = true ↔ ∃ head ∈ live, p = head + gcHead)) ∧
        (p % memAlign = 0 → region.blockUsed (region.blockPos p) = true →
          ∃ header, walkHeaders (Small.markHeaders prepared.memory marked) p =
              some header ∧ header ≤ blockBound (roundDownBlockSize p)) := by
  obtain ⟨ready, run, prepared, _, bounds⟩ := divided.prepareGcSmall
  refine ⟨ready, run, bounds, fun marked region member p low high => ⟨?_, fun aligned bit => ?_⟩⟩
  · rw [isSmallObject_markHeaders]
    exact prepared.tested member low high
  · obtain ⟨inRegion, position⟩ := prepared.divided.regions.roundDown_mem member low high
    rw [position] at bit
    obtain ⟨header, walk, _, inside, _⟩ := prepared.walked aligned
      ⟨⟨region, member, inRegion⟩, (prepared.tables region member _ inRegion).mp bit⟩
    rw [walkHeaders_markHeaders]
    exact ⟨header, walk, inside⟩

end

def Small.unused (memory : Memory) : Small :=
  ⟨memory, [], 0, 0, 0, 0⟩

theorem Divided.unused (memory : Memory) :
    Divided (Small.unused memory) [] ⟨fun _ => [], [], []⟩ := by
  have noPiece : ∀ head, ¬Piece [] ⟨fun _ => [], [], []⟩ head := by
    rintro head ⟨block, _, member⟩
    cases member
  have noBlock : ∀ block, ¬IsBlock [] block := by
    rintro block ⟨region, member, _⟩
    cases member
  exact {
    regions := ⟨by simp [Small.unused], by simp [Small.unused], by simp [Small.unused], .nil⟩
    tiled := fun block used => absurd used.1 (noBlock block)
    cursor := fun room => absurd room (lt_irrefl 0)
    chunkChain := rfl
    chunk := by simp
    chunksDistinct := .nil
    blockChain := rfl
    group := by simp
    groupsAscending := .nil
    header := fun head piece => absurd piece (noPiece head)
    object := by simp
    liveDistinct := .nil }

theorem Divided.gcMallocSmall_allocated {area after : Small} {live : List Nat} {owners : Owners} {p : Nat}
    (divided : Divided area live owners) (size : Nat) (grant : Small.Grant)
    (granted : grant.Ok area.regions)
    (asked : 0 < size ∧ size % memAlign = 0 ∧ size < gcMaxSmallObjectSize)
    (run : area.gcMallocSmall size true grant = .allocated p after) :
    ∃ owners, Divided after (Gc.header p :: live) owners := by
  have keeps := divided.gcMallocSmall asked.1 asked.2.1 asked.2.2 true granted
  rw [run] at keeps
  exact keeps.1

theorem is_small_object_exact_first :
    ∃ first second third prepared,
      (Small.unused fun _ => 0).gcMallocSmall 16 true (.region 4194304 fun _ => 0) =
        .allocated 4194312 first ∧
      first.gcMallocSmall 1016 true .refused = .allocated 4194328 second ∧
      second.gcMallocSmall 24 true .refused = .allocated 4195344 third ∧
      third.prepareGcSmall = some prepared ∧
      regionBounds prepared.regions = regionBounds third.regions ∧
      ∀ marked, ∀ region ∈ prepared.regions, ∀ p, region.start ≤ p → p < region.stop →
        (∃ answer, isSmallObject (Small.markHeaders prepared.memory marked) region p =
            some answer ∧
            (answer = true ↔ ∃ head ∈ [4195340, 4194324, 4194308], p = head + gcHead)) ∧
        (p % memAlign = 0 → region.blockUsed (region.blockPos p) = true →
          ∃ header, walkHeaders (Small.markHeaders prepared.memory marked) p = some header ∧
            header ≤ blockBound (roundDownBlockSize p)) := by
  have granted : (Small.Grant.region 4194304 fun _ => 0).Ok
      (Small.unused fun _ => 0).regions :=
    ⟨by decide, by decide, by decide, by simp [Small.unused]⟩
  have start := Divided.unused fun _ => 0
  obtain ⟨_, one⟩ := start.gcMallocSmall_allocated 16 _ granted (by decide) rfl
  obtain ⟨_, two⟩ := one.gcMallocSmall_allocated 1016 .refused trivial (by decide) rfl
  obtain ⟨_, three⟩ := two.gcMallocSmall_allocated 24 .refused trivial (by decide) rfl
  obtain ⟨prepared, prepares, exactly⟩ := is_small_object_exact three
  exact ⟨_, _, _, prepared, rfl, rfl, rfl, prepares, exactly⟩

end LaTTe.Gc
