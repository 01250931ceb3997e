import LaTTe.Gc.Small.Allocator

namespace LaTTe.Gc

open LaTTe.Data

/-! Who owns the memory of the small object area. -/

/-- How the area is divided: the pieces of each used block, the free chunks and the
groups of free blocks with their sizes. -/
structure Owners where
  layout : Nat → List Nat
  chunks : List (Nat × Nat)
  free : List (Nat × Nat)

structure RegionsOk (regions : List SmallRegion) : Prop where
  aligned : ∀ region ∈ regions, region.start % gcBlockSize = 0
  whole : ∀ region ∈ regions, region.stop = region.start + gcRegionSize
  bounds : ∀ region ∈ regions, 0 < region.start ∧ region.stop < 2 ^ 32
  ascending : regions.Pairwise fun region next => region.stop ≤ next.start

def IsBlock (regions : List SmallRegion) (block : Nat) : Prop :=
  ∃ region ∈ regions, block ∈ region.blocks

def Outside (free : List (Nat × Nat)) (block : Nat) : Prop :=
  ∀ group ∈ free, block < group.1 ∨ group.1 + group.2 ≤ block

def Used (regions : List SmallRegion) (owners : Owners) (block : Nat) : Prop :=
  IsBlock regions block ∧ Outside owners.free block

def Piece (regions : List SmallRegion) (owners : Owners) (head : Nat) : Prop :=
  ∃ block, Used regions owners block ∧ head ∈ owners.layout block

namespace Small

def AtCursor (area : Small) (head : Nat) : Prop :=
  head = area.cursor ∧ area.cursor < area.bound

instance (area : Small) (head : Nat) : Decidable (area.AtCursor head) :=
  inferInstanceAs (Decidable (_ ∧ _))

def pieceSize (area : Small) (head : Nat) : Nat :=
  if area.AtCursor head then area.bound - area.cursor
  else headerSize area.memory head

end Small

theorem Small.pieceSize_congr {area other : Small} {head : Nat}
    (cursor : other.cursor = area.cursor) (bound : other.bound = area.bound)
    (word : other.memory head = area.memory head) :
    other.pieceSize head = area.pieceSize head := by
  cases area
  cases other
  dsimp only at cursor bound word
  subst cursor bound
  unfold Small.pieceSize headerSize
  dsimp only
  rw [word]
  rfl

/-- The area is divided among the live objects, the free chunks, the free blocks, the
current free area and free pieces on no list. -/
structure Divided (area : Small) (live : List Nat) (owners : Owners) : Prop where
  regions : RegionsOk area.regions
  tiled : ∀ block, Used area.regions owners block →
    Tiles area.pieceSize (firstHeader block) (owners.layout block) (blockBound block)
  cursor : area.cursor < area.bound →
    Piece area.regions owners area.cursor ∧ (area.bound - area.cursor) % 8 = 0
  chunkChain : Chain (link area.memory) area.chunks (owners.chunks.map Prod.fst) 0
  chunk : ∀ chunk ∈ owners.chunks,
    area.memory chunk.1 = setFlag chunk.2 .free ∧ chunk.2 % 8 = 0 ∧
      Piece area.regions owners chunk.1 ∧ ¬area.AtCursor chunk.1
  chunksDistinct : (owners.chunks.map Prod.fst).Nodup
  blockChain : Chain (link area.memory) area.blocks (owners.free.map Prod.fst) 0
  group : ∀ group ∈ owners.free,
    area.memory group.1 = group.2 ∧ 0 < group.2 ∧ group.2 % gcBlockSize = 0 ∧
      ∃ region ∈ area.regions, group.1 ∈ region.blocks ∧ group.1 + group.2 ≤ region.stop
  groupsAscending : owners.free.Pairwise fun group next => group.1 + group.2 ≤ next.1
  header : ∀ head, Piece area.regions owners head → ¬area.AtCursor head →
    hasFlag (area.memory head) .mark = false ∧
      (hasFlag (area.memory head) .free = false ↔ head ∈ live)
  object : ∀ head ∈ live, Piece area.regions owners head ∧ ¬area.AtCursor head
  liveDistinct : live.Nodup

section

variable {regions : List SmallRegion} {owners : Owners} {area : Small} {live : List Nat}

theorem RegionsOk.mem_blocks (ok : RegionsOk regions) {region : SmallRegion}
    (member : region ∈ regions) {block : Nat} :
    block ∈ region.blocks ↔ block % gcBlockSize = 0 ∧ region.start ≤ block ∧
      block + gcBlockSize ≤ region.stop := by
  have whole := ok.whole region member
  have aligned := ok.aligned region member
  simp only [SmallRegion.blocks, List.mem_map, List.mem_range]
  unfold gcBlockSize gcRegionSize at *
  constructor
  · rintro ⟨pos, below, rfl⟩
    omega
  · intro inside
    exact ⟨(block - region.start) / 4096, by omega, by omega⟩

theorem IsBlock.facts (ok : RegionsOk regions) {block : Nat} (isBlock : IsBlock regions block) :
    block % gcBlockSize = 0 ∧ 0 < block ∧ block + gcBlockSize < 2 ^ 32 := by
  obtain ⟨region, member, inRegion⟩ := isBlock
  obtain ⟨block_mod, start_le, le_stop⟩ := (ok.mem_blocks member).mp inRegion
  have := ok.bounds region member
  exact ⟨block_mod, by omega, by omega⟩

theorem blocks_apart {block other : Nat} (block_mod : block % gcBlockSize = 0)
    (other_mod : other % gcBlockSize = 0) :
    block = other ∨ block + gcBlockSize ≤ other ∨ other + gcBlockSize ≤ block := by
  unfold gcBlockSize at *
  omega

theorem Divided.pieceSize_mod (divided : Divided area live owners) (head : Nat) :
    area.pieceSize head % 8 = 0 := by
  unfold Small.pieceSize
  split
  · rename_i atCursor
    exact (divided.cursor atCursor.2).2
  · exact headerSize_mod area.memory head

theorem Divided.piece_bounds (divided : Divided area live owners) {block head : Nat}
    (used : Used area.regions owners block) (member : head ∈ owners.layout block) :
    firstHeader block ≤ head ∧ 8 ≤ area.pieceSize head ∧
      head + area.pieceSize head ≤ blockBound block ∧ head % 8 = 4 := by
  have tiled := divided.tiled block used
  obtain ⟨before, positive, after⟩ := tiled.mem_bounds member
  have size_mod := divided.pieceSize_mod
  have head_mod : head % 8 = 4 := by
    rw [tiled.mod_eq size_mod member]
    exact firstHeader_mod (used.1.facts divided.regions).1
  have := size_mod head
  exact ⟨before, by omega, after, head_mod⟩

theorem Divided.pieces_apart (divided : Divided area live owners) {head other : Nat}
    (piece : Piece area.regions owners head) (piece' : Piece area.regions owners other)
    (different : head ≠ other) :
    head + area.pieceSize head ≤ other ∨ other + area.pieceSize other ≤ head := by
  obtain ⟨block, used, member⟩ := piece
  obtain ⟨block', used', member'⟩ := piece'
  have bounds := divided.piece_bounds used member
  have bounds' := divided.piece_bounds used' member'
  rcases blocks_apart (used.1.facts divided.regions).1 (used'.1.facts divided.regions).1 with
    rfl | apart
  · exact (divided.tiled block used).disjoint member member' different
  · unfold firstHeader blockBound memAlign gcHead at *
    omega

theorem Divided.group_facts (divided : Divided area live owners) {group : Nat × Nat}
    (member : group ∈ owners.free) :
    group.1 % gcBlockSize = 0 ∧ 0 < group.1 ∧ gcBlockSize ≤ group.2 := by
  obtain ⟨_, positive, size_mod, region, inRegions, isBlock, _⟩ := divided.group group member
  have facts := IsBlock.facts divided.regions ⟨region, inRegions, isBlock⟩
  refine ⟨facts.1, facts.2.1, ?_⟩
  unfold gcBlockSize at *
  omega

theorem Divided.piece_group_apart (divided : Divided area live owners) {head : Nat}
    {group : Nat × Nat} (piece : Piece area.regions owners head)
    (member : group ∈ owners.free) :
    head + area.pieceSize head ≤ group.1 ∨ group.1 + group.2 ≤ head := by
  obtain ⟨block, used, inBlock⟩ := piece
  have bounds := divided.piece_bounds used inBlock
  have facts := divided.group_facts member
  have block_mod := (used.1.facts divided.regions).1
  have size_mod := (divided.group group member).2.2.1
  rcases used.2 group member with before | behind
  all_goals
    unfold firstHeader blockBound gcBlockSize memAlign gcHead at *
    omega

end

end LaTTe.Gc
