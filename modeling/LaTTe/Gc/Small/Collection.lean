import LaTTe.Gc.Small.Agreement
import LaTTe.Gc.Small.Conservative

namespace LaTTe.Gc

open LaTTe.Data

/-! A collection divides the area anew: what was not marked is free. -/

namespace Harvest

def pieces (size : Nat → Nat) : Nat → List Nat → Nat → List Nat
  | lo, [], hi => if lo < hi then [lo] else []
  | lo, first :: rest, hi =>
      (if lo < first then [lo] else []) ++
        first :: pieces size (first + size first) rest hi

def gaps (size : Nat → Nat) (lo : Nat) (heads : List Nat) (hi : Nat) : Harvest :=
  between size lo heads ++ gap (tailStart size lo heads) hi

section

variable {size : Nat → Nat} {lo hi : Nat} {heads : List Nat}

theorem mem_chunks_gap {chunk : Nat × Nat} :
    chunk ∈ (gap lo hi).chunks ↔ lo < hi ∧ chunk = (lo, hi - lo) := by
  unfold gap
  split
  · rename_i nonempty
    simp [Harvest.chunk, nonempty]
  · rename_i empty
    simp [Harvest.empty, empty]

theorem mem_chunks_gaps_nil {chunk : Nat × Nat} :
    chunk ∈ (gaps size lo [] hi).chunks ↔ lo < hi ∧ chunk = (lo, hi - lo) := by
  unfold gaps
  rw [between, tailStart, empty_append]
  exact mem_chunks_gap

theorem mem_chunks_gaps_cons {first : Nat} {rest : List Nat} {chunk : Nat × Nat} :
    chunk ∈ (gaps size lo (first :: rest) hi).chunks ↔
      (lo < first ∧ chunk = (lo, first - lo)) ∨
        chunk ∈ (gaps size (first + size first) rest hi).chunks := by
  unfold gaps
  rw [between, tailStart, append_assoc, append_chunks, append_chunks, List.mem_append,
    List.mem_append, mem_chunks_gap]
  simp [head]

/-- With their new sizes the pieces fill the same memory. -/
theorem pieces_tiled {after : Nat → Nat} (spaced : Spaced size lo heads hi)
    (survive : ∀ head ∈ heads, after head = size head)
    (freed : ∀ chunk ∈ (gaps size lo heads hi).chunks, after chunk.1 = chunk.2) :
    Tiles after lo (pieces size lo heads hi) hi := by
  induction heads generalizing lo with
  | nil =>
      have le : lo ≤ hi := spaced
      unfold pieces
      split
      · rename_i nonempty
        have fresh := freed (lo, hi - lo) (mem_chunks_gaps_nil.mpr ⟨nonempty, rfl⟩)
        dsimp only at fresh
        refine ⟨rfl, ?_, ?_⟩
        · omega
        · show lo + after lo = hi
          omega
      · show lo = hi
        omega
  | cons first rest ih =>
      obtain ⟨le, positive, later⟩ := spaced
      have same := survive first List.mem_cons_self
      have behind : Tiles after first (first :: pieces size (first + size first) rest hi) hi := by
        refine ⟨rfl, by omega, ?_⟩
        rw [same]
        exact ih later (fun head member => survive head (List.mem_cons_of_mem _ member))
          fun chunk member => freed chunk (mem_chunks_gaps_cons.mpr (.inr member))
      unfold pieces
      split
      · rename_i room
        have fresh := freed (lo, first - lo) (mem_chunks_gaps_cons.mpr (.inl ⟨room, rfl⟩))
        dsimp only at fresh
        refine ⟨rfl, by omega, ?_⟩
        have reaches : lo + after lo = first := by omega
        rw [reaches]
        exact behind
      · obtain rfl : lo = first := by omega
        exact behind

theorem mem_pieces {head : Nat} :
    head ∈ pieces size lo heads hi ↔
      head ∈ heads ∨ ∃ chunk ∈ (gaps size lo heads hi).chunks, chunk.1 = head := by
  induction heads generalizing lo with
  | nil =>
      unfold pieces
      simp only [mem_chunks_gaps_nil, List.not_mem_nil, false_or]
      split
      · rename_i nonempty
        rw [List.mem_singleton]
        constructor
        · rintro rfl
          exact ⟨_, ⟨nonempty, rfl⟩, rfl⟩
        · rintro ⟨chunk, ⟨_, rfl⟩, rfl⟩
          rfl
      · rename_i empty
        constructor
        · intro member
          cases member
        · rintro ⟨chunk, ⟨nonempty, _⟩, _⟩
          exact absurd nonempty empty
  | cons first rest ih =>
      unfold pieces
      simp only [mem_chunks_gaps_cons, List.mem_append, List.mem_cons, ih]
      have front : head ∈ (if lo < first then [lo] else []) ↔ lo < first ∧ lo = head := by
        split
        · rename_i room
          simp [room, eq_comm]
        · rename_i none
          simp [none]
      rw [front]
      constructor
      · rintro (⟨room, rfl⟩ | rfl | later | ⟨chunk, member, rfl⟩)
        · exact .inr ⟨_, .inl ⟨room, rfl⟩, rfl⟩
        · exact .inl (.inl rfl)
        · exact .inl (.inr later)
        · exact .inr ⟨chunk, .inr member, rfl⟩
      · rintro ((rfl | later) | ⟨chunk, ⟨room, rfl⟩ | member, rfl⟩)
        · exact .inr (.inl rfl)
        · exact .inr (.inr (.inl later))
        · exact .inl ⟨room, rfl⟩
        · exact .inr (.inr (.inr ⟨chunk, member, rfl⟩))

theorem chunk_aligned {chunk : Nat × Nat} (spaced : Spaced size lo heads hi)
    (lo_mod : lo % 8 = 4) (hi_mod : hi % 8 = 4)
    (aligned : ∀ head ∈ heads, head % 8 = 4 ∧ size head % 8 = 0)
    (member : chunk ∈ (gaps size lo heads hi).chunks) : chunk.2 % 8 = 0 := by
  induction heads generalizing lo with
  | nil =>
      obtain ⟨nonempty, rfl⟩ := mem_chunks_gaps_nil.mp member
      show (hi - lo) % 8 = 0
      omega
  | cons first rest ih =>
      obtain ⟨le, _, later⟩ := spaced
      have here := aligned first List.mem_cons_self
      rcases mem_chunks_gaps_cons.mp member with ⟨room, rfl⟩ | inRest
      · show (first - lo) % 8 = 0
        omega
      · exact ih later (by omega) (fun head inRest => aligned head (List.mem_cons_of_mem _ inRest))
          inRest

end

/-! Free blocks. -/

structure GroupsIn (free : List (Nat × Nat)) (start stop : Nat) : Prop where
  inside : ∀ group ∈ free, start ≤ group.1 ∧ 0 < group.2 ∧ group.1 + group.2 ≤ stop
  whole : ∀ group ∈ free, group.1 % gcBlockSize = 0 ∧ group.2 % gcBlockSize = 0
  ascending : free.Pairwise fun group next => group.1 + group.2 ≤ next.1

theorem groupsIn_nil {start stop : Nat} : GroupsIn [] start stop :=
  ⟨by simp, by simp, .nil⟩

theorem GroupsIn.append {left right : List (Nat × Nat)} {start middle middle' stop : Nat}
    (groups : GroupsIn left start middle) (groups' : GroupsIn right middle' stop)
    (ordered : middle ≤ middle') (start_le : start ≤ middle') (le_stop : middle ≤ stop) :
    GroupsIn (left ++ right) start stop where
  inside := by
    intro group member
    rcases List.mem_append.mp member with inLeft | inRight
    · have := groups.inside group inLeft
      omega
    · have := groups'.inside group inRight
      omega
  whole := by
    intro group member
    exact (List.mem_append.mp member).elim (groups.whole group) (groups'.whole group)
  ascending := by
    refine List.pairwise_append.mpr ⟨groups.ascending, groups'.ascending, ?_⟩
    intro group inLeft next inRight
    have := groups.inside group inLeft
    have := groups'.inside next inRight
    omega

theorem blocks_gap (lo hi : Nat) : (gap lo hi).blocks = [] := by
  unfold gap
  split <;> rfl

theorem blocks_between (size : Nat → Nat) (lo : Nat) (heads : List Nat) :
    (between size lo heads).blocks = [] := by
  induction heads generalizing lo with
  | nil => rfl
  | cons first rest ih =>
      rw [between, append_blocks, append_blocks, blocks_gap, ih]
      rfl

theorem blocks_ofBlock (size : Nat → Nat) (start : Nat) (heads : List Nat) :
    (ofBlock size start heads).blocks = [] := by
  rw [ofBlock, append_blocks, blocks_between, blocks_gap]
  rfl

theorem chunks_run (lo hi : Nat) : (run lo hi).chunks = [] := by
  unfold run
  split <;> rfl

theorem groupsIn_run {lo hi : Nat} (lo_mod : lo % gcBlockSize = 0)
    (hi_mod : hi % gcBlockSize = 0) : GroupsIn (run lo hi).blocks lo hi := by
  unfold run
  split
  · rename_i nonempty
    refine ⟨?_, ?_, List.pairwise_singleton _ _⟩
    · intro group member
      obtain rfl := List.mem_singleton.mp member
      dsimp only
      omega
    · intro group member
      obtain rfl := List.mem_singleton.mp member
      unfold gcBlockSize at *
      dsimp only
      omega
  · exact groupsIn_nil

theorem outside_run {lo hi block : Nat} (lo_le : lo ≤ hi) :
    Outside (run lo hi).blocks block ↔ block < lo ∨ hi ≤ block := by
  unfold run Outside
  split
  · rename_i nonempty
    have : (block < lo ∨ lo + (hi - lo) ≤ block) ↔ (block < lo ∨ hi ≤ block) := by omega
    simpa [Harvest.block] using this
  · rename_i empty
    simp only [Harvest.empty, List.not_mem_nil, false_implies, implies_true, true_iff]
    omega

theorem outside_append {left right : List (Nat × Nat)} {block : Nat} :
    Outside (left ++ right) block ↔ Outside left block ∧ Outside right block := by
  unfold Outside
  exact List.forall_mem_append

section

variable (size : Nat → Nat) (live : Nat → List Nat) {start current stop : Nat}
  {blocks : List Nat}

theorem groupsIn_ofRegion (tiled : Tiles (fun _ => gcBlockSize) current blocks stop)
    (start_le : start ≤ current) (start_mod : start % gcBlockSize = 0)
    (current_mod : current % gcBlockSize = 0) :
    GroupsIn (ofRegion size live start blocks stop).blocks start stop := by
  induction blocks generalizing start current with
  | nil =>
      obtain rfl : current = stop := tiled
      exact groupsIn_run start_mod current_mod
  | cons block rest ih =>
      obtain ⟨rfl, _, later⟩ := tiled
      have next_mod : (block + gcBlockSize) % gcBlockSize = 0 := by
        rwa [Nat.add_mod_right]
      have := later.le
      unfold ofRegion
      split
      · exact ih later (by omega) start_mod next_mod
      · rw [append_blocks, append_blocks, blocks_ofBlock, List.nil_append]
        exact (groupsIn_run start_mod current_mod).append
          (ih later (Nat.le_refl _) next_mod next_mod) (by omega) (by omega) (by omega)

theorem covered_ofRegion (tiled : Tiles (fun _ => gcBlockSize) current blocks stop)
    {block : Nat} (low : start ≤ block) (below : block < current) :
    ¬Outside (ofRegion size live start blocks stop).blocks block := by
  induction blocks generalizing current with
  | nil =>
      obtain rfl : current = stop := tiled
      rw [ofRegion, outside_run (by omega)]
      omega
  | cons first rest ih =>
      obtain ⟨rfl, _, later⟩ := tiled
      unfold ofRegion
      split
      · exact ih later (by omega)
      · rw [append_blocks, append_blocks, outside_append, outside_append,
          outside_run (by omega)]
        omega

theorem outside_ofRegion (tiled : Tiles (fun _ => gcBlockSize) current blocks stop)
    (start_le : start ≤ current) (start_mod : start % gcBlockSize = 0)
    (current_mod : current % gcBlockSize = 0) {block : Nat} (member : block ∈ blocks) :
    Outside (ofRegion size live start blocks stop).blocks block ↔ live block ≠ [] := by
  induction blocks generalizing start current with
  | nil => cases member
  | cons first rest ih =>
      obtain ⟨rfl, _, later⟩ := tiled
      have next_mod : (first + gcBlockSize) % gcBlockSize = 0 := by
        rwa [Nat.add_mod_right]
      rcases List.mem_cons.mp member with rfl | inRest
      · unfold ofRegion
        split
        · rename_i free
          have covered := covered_ofRegion size live later
            start_le (Nat.lt_add_of_pos_right (by decide : 0 < gcBlockSize))
          simp [covered, free]
        · rename_i survivors
          have behind := groupsIn_ofRegion size live later
            (Nat.le_refl _) next_mod next_mod
          refine iff_of_true ?_ survivors
          rw [append_blocks, append_blocks, blocks_ofBlock, List.nil_append, outside_append,
            outside_run start_le]
          refine ⟨.inr (Nat.le_refl _), fun group inRest => .inl ?_⟩
          have := behind.inside group inRest
          have : 0 < gcBlockSize := by decide
          omega
      · have bounds := later.mem_bounds inRest
        unfold ofRegion
        split
        · exact ih later (by omega) start_mod next_mod inRest
        · rw [append_blocks, append_blocks, blocks_ofBlock, List.nil_append, outside_append,
            outside_run start_le, ih later (Nat.le_refl _) next_mod next_mod inRest]
          exact and_iff_right (.inr (by omega))

theorem mem_chunks_ofRegion {chunk : Nat × Nat} :
    chunk ∈ (ofRegion size live start blocks stop).chunks ↔
      ∃ block ∈ blocks, live block ≠ [] ∧ chunk ∈ (ofBlock size block (live block)).chunks := by
  induction blocks generalizing start with
  | nil => simp [ofRegion]
  | cons first rest ih =>
      unfold ofRegion
      split
      · rename_i free
        rw [ih]
        simp [free]
      · rename_i survivors
        rw [append_chunks, append_chunks, chunks_run, List.append_nil, List.mem_append, ih]
        simp [survivors]

end

/-! The whole area. -/

section

variable {memory : Memory} {layout : Nat → List Nat} {regions : List SmallRegion}

theorem mem_chunks_ofArea {chunk : Nat × Nat} :
    chunk ∈ (ofArea memory layout regions).chunks ↔
      ∃ region ∈ regions, ∃ block ∈ region.blocks, region.survivors memory layout block ≠ [] ∧
        chunk ∈ (ofBlock (headerSize memory) block
          (region.survivors memory layout block)).chunks := by
  induction regions with
  | nil => simp [ofArea, Harvest.empty]
  | cons region rest ih =>
      rw [ofArea, append_chunks, List.mem_append, mem_chunks_ofRegion, ih]
      simp

theorem group_ofArea (area : AreaTiled regions memory layout) {group : Nat × Nat}
    (member : group ∈ (ofArea memory layout regions).blocks) :
    ∃ region ∈ regions, region.start ≤ group.1 ∧ 0 < group.2 ∧
      group.1 + group.2 ≤ region.stop ∧ group.1 % gcBlockSize = 0 ∧
        group.2 % gcBlockSize = 0 := by
  induction regions with
  | nil => cases member
  | cons region rest ih =>
      rw [ofArea, append_blocks] at member
      rcases List.mem_append.mp member with here | later
      · have start_mod := (area.aligned region (by simp)).1
        have groups := groupsIn_ofRegion (headerSize memory)
          (region.survivors memory layout) (area.blocks_tiled (by simp))
          (Nat.le_refl _) start_mod start_mod
        obtain ⟨low, positive, high⟩ := groups.inside group here
        exact ⟨region, by simp, low, positive, high, groups.whole group here⟩
      · obtain ⟨other, inRest, facts⟩ := ih area.tail later
        exact ⟨other, List.mem_cons_of_mem _ inRest, facts⟩

theorem ascending_ofArea (area : AreaTiled regions memory layout) :
    (ofArea memory layout regions).blocks.Pairwise
      fun group next => group.1 + group.2 ≤ next.1 := by
  induction regions with
  | nil => exact .nil
  | cons region rest ih =>
      have start_mod := (area.aligned region (by simp)).1
      have groups := groupsIn_ofRegion (headerSize memory)
        (region.survivors memory layout) (area.blocks_tiled (by simp))
        (Nat.le_refl _) start_mod start_mod
      rw [ofArea, append_blocks]
      refine List.pairwise_append.mpr ⟨groups.ascending, ih area.tail, ?_⟩
      intro group here next later
      obtain ⟨other, inRest, low, _⟩ := group_ofArea area.tail later
      have := (groups.inside group here).2.2
      have := (List.pairwise_cons.mp area.ascending).1 other inRest
      omega

theorem outside_ofArea (area : AreaTiled regions memory layout) {region : SmallRegion}
    (member : region ∈ regions) {block : Nat} (inRegion : block ∈ region.blocks) :
    Outside (ofArea memory layout regions).blocks block ↔
      region.survivors memory layout block ≠ [] := by
  induction regions with
  | nil => cases member
  | cons first rest ih =>
      have start_mod := (area.aligned first (by simp)).1
      have tiled := area.blocks_tiled (List.mem_cons_self : first ∈ first :: rest)
      rw [ofArea, append_blocks, outside_append]
      rcases List.mem_cons.mp member with rfl | inRest
      · rw [outside_ofRegion _ _ tiled (Nat.le_refl _) start_mod start_mod inRegion]
        apply and_iff_left
        intro group later
        obtain ⟨other, inRest, low, _⟩ := group_ofArea area.tail later
        have := (tiled.mem_bounds inRegion).2
        have := (List.pairwise_cons.mp area.ascending).1 other inRest
        omega
      · rw [ih area.tail inRest]
        apply and_iff_right
        intro group here
        have groups := groupsIn_ofRegion (headerSize memory)
          (first.survivors memory layout) tiled (Nat.le_refl _) start_mod start_mod
        have := (groups.inside group here).2.2
        have := (List.pairwise_cons.mp area.ascending).1 region inRest
        have := ((area.blocks_tiled member).mem_bounds inRegion).1
        omega

end

-- a list of 511 entries is better not computed
attribute [local irreducible] indexOrder

def owners (harvest : Harvest) (size : Nat → Nat) (heads : Nat → List Nat) : Owners where
  layout block := pieces size (firstHeader block) (heads block) (blockBound block)
  chunks := indexOrder.flatMap fun index =>
    harvest.chunks.filter fun chunk => chunk.2 / memAlign = index
  free := harvest.blocks

section

variable {harvest : Harvest} {size : Nat → Nat} {heads : Nat → List Nat}

theorem owners_chunks_merged :
    (harvest.owners size heads).chunks.map Prod.fst = harvest.merged := by
  rw [owners, List.map_flatMap, merged]
  rfl

theorem mem_owners_chunks
    (long : ∀ node ∈ harvest.chunks ++ harvest.blocks, 8 ≤ node.2 ∧ 0 < node.1)
    (short : ∀ chunk ∈ harvest.chunks, chunk.2 < gcBlockSize) {chunk : Nat × Nat} :
    chunk ∈ (harvest.owners size heads).chunks ↔ chunk ∈ harvest.chunks := by
  simp only [owners, List.mem_flatMap, List.mem_filter, decide_eq_true_eq, mem_indexOrder]
  constructor
  · rintro ⟨_, _, member, _⟩
    exact member
  · intro member
    have large := (long chunk (List.mem_append_left _ member)).1
    have small := short chunk member
    have entries : smallChunksListIndexSize = 512 := rfl
    unfold memAlign gcBlockSize at *
    exact ⟨_, ⟨by omega, by omega⟩, member, rfl⟩

end

end Harvest

theorem clearFlag_setFlag {word : Nat} {flag : Flag} (clear : hasFlag word flag = false) :
    clearFlag (setFlag word flag) flag = word := by
  have high : clearFlag (setFlag word flag) flag / 8 = word / 8 := by
    rw [clearFlag_div, setFlag_div]
  have low : clearFlag (setFlag word flag) flag % 8 = word % 8 := by
    rw [clearFlag_mod, setFlag_mod]
    rw [hasFlag_mod] at clear
    have bound : word % 8 < 8 := Nat.mod_lt _ (by decide)
    generalize word % 8 = bits at bound clear
    cases flag <;> interval_cases bits <;> first | rfl | cases clear
  omega

theorem headerSize_markHeaders (memory : Memory) (marked : List Nat) (head : Nat) :
    headerSize (Small.markHeaders memory marked) head = headerSize memory head := by
  unfold headerSize Small.markHeaders
  split
  · exact maskSize_setFlag _ _
  · rfl

section

variable {area : Small} {live marked : List Nat} {owners : Owners}

theorem Prepared.not_atCursor (prepared : Prepared area live owners) (head : Nat) :
    ¬area.AtCursor head := by
  rintro ⟨_, room⟩
  rw [prepared.cursor, prepared.bound] at room
  exact absurd room (lt_irrefl 0)

theorem Prepared.areaTiled (prepared : Prepared area live owners) (marked : List Nat) :
    AreaTiled area.regions (Small.markHeaders area.memory marked) owners.layout where
  aligned := by
    intro region member
    have aligned := prepared.divided.regions.aligned region member
    refine ⟨aligned, ?_⟩
    rw [prepared.divided.regions.whole region member, Nat.add_mod, aligned]
    decide
  bounds := by
    intro region member
    have bounds := prepared.divided.regions.bounds region member
    refine ⟨bounds.1, ?_, bounds.2⟩
    rw [prepared.divided.regions.whole region member]
    exact Nat.lt_add_of_pos_right (by decide)
  ascending := prepared.divided.regions.ascending
  tiled := by
    intro region member block inRegion used
    have outside := (prepared.tables region member block inRegion).mp used
    exact (prepared.blockTiled ⟨⟨region, member, inRegion⟩, outside⟩).congr
      fun head _ => headerSize_markHeaders _ _ head

theorem Prepared.mem_survivors (prepared : Prepared area live owners) {region : SmallRegion}
    (member : region ∈ area.regions) {block : Nat} (inRegion : block ∈ region.blocks)
    {head : Nat} :
    head ∈ region.survivors (Small.markHeaders area.memory marked) owners.layout block ↔
      head ∈ marked ∧ Used area.regions owners block ∧ head ∈ owners.layout block := by
  have table := prepared.tables region member block inRegion
  unfold SmallRegion.survivors
  split
  · rename_i inUse
    have used : Used area.regions owners block :=
      ⟨⟨region, member, inRegion⟩, table.mp inUse⟩
    rw [List.mem_filter]
    constructor
    · rintro ⟨inBlock, mark⟩
      refine ⟨?_, used, inBlock⟩
      have unmarked := (prepared.divided.header head ⟨block, used, inBlock⟩
        (prepared.not_atCursor head)).1
      unfold Small.markHeaders at mark
      split at mark
      · assumption
      · rw [unmarked] at mark
        cases mark
    · rintro ⟨isMarked, _, inBlock⟩
      refine ⟨inBlock, ?_⟩
      rw [Small.markHeaders, if_pos isMarked]
      simp
  · rename_i free
    constructor
    · intro none
      cases none
    · rintro ⟨_, used, _⟩
      exact absurd (table.mpr used.2) free

theorem Prepared.survivor_of_marked (prepared : Prepared area live owners)
    (objects : ∀ head ∈ marked, head ∈ live) {head : Nat} (isMarked : head ∈ marked) :
    ∃ region ∈ area.regions, ∃ block ∈ region.blocks,
      head ∈ region.survivors (Small.markHeaders area.memory marked) owners.layout block := by
  obtain ⟨⟨block, used, inBlock⟩, _⟩ := prepared.divided.object head (objects head isMarked)
  obtain ⟨region, member, inRegion⟩ := used.1
  exact ⟨region, member, block, inRegion,
    (prepared.mem_survivors member inRegion).mpr ⟨isMarked, used, inBlock⟩⟩

theorem Prepared.mem_liveObjects (prepared : Prepared area live owners)
    (objects : ∀ head ∈ marked, head ∈ live) {p : Nat} :
    p ∈ liveObjects area.regions (Small.markHeaders area.memory marked) owners.layout ↔
      ∃ head ∈ marked, p = head + gcHead := by
  simp only [liveObjects, SmallRegion.liveObjects, List.mem_flatMap, List.mem_map]
  constructor
  · rintro ⟨region, member, head, ⟨block, inRegion, survives⟩, rfl⟩
    exact ⟨head, ((prepared.mem_survivors member inRegion).mp survives).1, rfl⟩
  · rintro ⟨head, isMarked, rfl⟩
    obtain ⟨region, member, block, inRegion, survives⟩ :=
      prepared.survivor_of_marked objects isMarked
    exact ⟨region, member, head, ⟨block, inRegion, survives⟩, rfl⟩

variable {swept : Swept}

structure Collected (area : Small) (live marked : List Nat) (owners : Owners)
    (swept : Swept) : Prop where
  prepared : Prepared area live owners
  objects : ∀ head ∈ marked, head ∈ live
  kept : Kept (Small.markHeaders area.memory marked)
    (Harvest.ofArea (Small.markHeaders area.memory marked) owners.layout area.regions) swept

namespace Collected

def harvest (area : Small) (marked : List Nat) (owners : Owners) : Harvest :=
  .ofArea (Small.markHeaders area.memory marked) owners.layout area.regions

def after (area : Small) (marked : List Nat) (owners : Owners) : Owners :=
  (harvest area marked owners).owners (headerSize area.memory) fun block =>
    (owners.layout block).filter (· ∈ marked)

section

variable (collected : Collected area live marked owners swept)

include collected

theorem survivors_eq {region : SmallRegion} (member : region ∈ area.regions) {block : Nat}
    (inRegion : block ∈ region.blocks)
    (some : region.survivors (Small.markHeaders area.memory marked) owners.layout block ≠ []) :
    Used area.regions owners block ∧
      region.survivors (Small.markHeaders area.memory marked) owners.layout block =
        (owners.layout block).filter (· ∈ marked) := by
  obtain ⟨head, survives⟩ := List.exists_mem_of_ne_nil _ some
  have used := ((collected.prepared.mem_survivors member inRegion).mp survives).2.1
  refine ⟨used, ?_⟩
  rw [SmallRegion.survivors,
    if_pos ((collected.prepared.tables region member block inRegion).mpr used.2)]
  apply List.filter_congr
  intro other inBlock
  have same : other ∈ region.survivors (Small.markHeaders area.memory marked) owners.layout
      block ↔ other ∈ marked ∧ _ ∧ _ := collected.prepared.mem_survivors member inRegion
  rw [SmallRegion.survivors,
    if_pos ((collected.prepared.tables region member block inRegion).mpr used.2),
    List.mem_filter] at same
  rw [Bool.eq_iff_iff, decide_eq_true_eq]
  exact ⟨fun mark => (same.mp ⟨inBlock, mark⟩).1, fun isMarked =>
    (same.mpr ⟨isMarked, used, inBlock⟩).2⟩

theorem used_iff {block : Nat} :
    Used area.regions (after area marked owners) block ↔
      ∃ region ∈ area.regions, block ∈ region.blocks ∧
        region.survivors (Small.markHeaders area.memory marked) owners.layout block ≠ [] := by
  have tiled := collected.prepared.areaTiled marked
  constructor
  · rintro ⟨⟨region, member, inRegion⟩, outside⟩
    exact ⟨region, member, inRegion, (Harvest.outside_ofArea tiled member inRegion).mp outside⟩
  · rintro ⟨region, member, inRegion, survive⟩
    exact ⟨⟨region, member, inRegion⟩,
      (Harvest.outside_ofArea tiled member inRegion).mpr survive⟩

theorem word (head : Nat) (isMarked : head ∈ marked) :
    swept.memory head = area.memory head := by
  have live := (collected.prepared.mem_liveObjects collected.objects).mpr
    ⟨head, isMarked, rfl⟩
  have cleared := collected.kept.survivor live
  obtain ⟨piece, notCursor⟩ :=
    collected.prepared.divided.object head (collected.objects head isMarked)
  rw [header_add, Small.markHeaders, if_pos isMarked, clearFlag_setFlag
    (collected.prepared.divided.header head piece notCursor).1] at cleared
  exact cleared

theorem mem_harvest {chunk : Nat × Nat} :
    chunk ∈ (harvest area marked owners).chunks ↔
      ∃ block, Used area.regions (after area marked owners) block ∧
        chunk ∈ (Harvest.gaps (headerSize area.memory) (firstHeader block)
          ((owners.layout block).filter (· ∈ marked)) (blockBound block)).chunks := by
  have sizes : headerSize (Small.markHeaders area.memory marked) = headerSize area.memory :=
    funext (headerSize_markHeaders _ _)
  rw [harvest, Harvest.mem_chunks_ofArea, sizes]
  constructor
  · rintro ⟨region, member, block, inRegion, survive, inGaps⟩
    refine ⟨block, collected.used_iff.mpr ⟨region, member, inRegion, survive⟩, ?_⟩
    rw [← (collected.survivors_eq member inRegion survive).2]
    exact inGaps
  · rintro ⟨block, used, inGaps⟩
    obtain ⟨region, member, inRegion, survive⟩ := collected.used_iff.mp used
    rw [← (collected.survivors_eq member inRegion survive).2] at inGaps
    exact ⟨region, member, block, inRegion, survive, inGaps⟩

theorem used_before {block : Nat} (used : Used area.regions (after area marked owners) block) :
    Used area.regions owners block := by
  obtain ⟨region, member, inRegion, survive⟩ := collected.used_iff.mp used
  exact (collected.survivors_eq member inRegion survive).1

theorem survivors_spaced {block : Nat} (used : Used area.regions owners block) :
    Spaced (headerSize area.memory) (firstHeader block)
        ((owners.layout block).filter (· ∈ marked)) (blockBound block) ∧
      ∀ head ∈ (owners.layout block).filter (· ∈ marked), head % 8 = 4 := by
  refine ⟨(collected.prepared.blockTiled used).spaced.filter _, ?_⟩
  intro head member
  exact (collected.prepared.divided.piece_bounds used (List.mem_filter.mp member).1).2.2.2

theorem chunk_size {chunk : Nat × Nat} (member : chunk ∈ (harvest area marked owners).chunks) :
    chunk.2 % 8 = 0 ∧ swept.memory chunk.1 = setFlag chunk.2 .free ∧
      headerSize swept.memory chunk.1 = chunk.2 := by
  obtain ⟨block, used, inGaps⟩ := collected.mem_harvest.mp member
  have before := collected.used_before used
  have block_mod := (before.1.facts collected.prepared.divided.regions).1
  obtain ⟨spaced, aligned⟩ := collected.survivors_spaced before
  have size_mod : chunk.2 % 8 = 0 := by
    apply Harvest.chunk_aligned spaced (firstHeader_mod block_mod) ?_ ?_ inGaps
    · unfold blockBound gcBlockSize gcHead at *
      omega
    · exact fun head inBlock => ⟨aligned head inBlock, headerSize_mod _ _⟩
  have word := collected.kept.sizes chunk member
  refine ⟨size_mod, word, ?_⟩
  rw [headerSize, word, maskSize_setFlag, maskSize_of_aligned size_mod]

theorem tiled {block : Nat} (used : Used area.regions (after area marked owners) block) :
    Tiles (headerSize swept.memory) (firstHeader block)
      ((after area marked owners).layout block) (blockBound block) := by
  apply Harvest.pieces_tiled (collected.survivors_spaced (collected.used_before used)).1
  · intro head member
    have isMarked := of_decide_eq_true (List.mem_filter.mp member).2
    rw [headerSize, headerSize, collected.word head isMarked]
  · intro chunk inGaps
    exact (collected.chunk_size (collected.mem_harvest.mpr ⟨block, used, inGaps⟩)).2.2

theorem piece_iff {head : Nat} :
    Piece area.regions (after area marked owners) head ↔
      head ∈ marked ∨ ∃ chunk ∈ (harvest area marked owners).chunks, chunk.1 = head := by
  constructor
  · rintro ⟨block, used, member⟩
    rcases Harvest.mem_pieces.mp member with survives | ⟨chunk, inGaps, rfl⟩
    · exact .inl (of_decide_eq_true (List.mem_filter.mp survives).2)
    · exact .inr ⟨chunk, collected.mem_harvest.mpr ⟨block, used, inGaps⟩, rfl⟩
  · rintro (isMarked | ⟨chunk, member, rfl⟩)
    · obtain ⟨region, member, block, inRegion, survives⟩ :=
        collected.prepared.survivor_of_marked collected.objects isMarked
      have survive := List.ne_nil_of_mem survives
      refine ⟨block, collected.used_iff.mpr ⟨region, member, inRegion, survive⟩,
        Harvest.mem_pieces.mpr (.inl ?_)⟩
      rwa [(collected.survivors_eq member inRegion survive).2] at survives
    · obtain ⟨block, used, inGaps⟩ := collected.mem_harvest.mp member
      exact ⟨block, used, Harvest.mem_pieces.mpr (.inr ⟨chunk, inGaps, rfl⟩)⟩

theorem mem_chunks {chunk : Nat × Nat} :
    chunk ∈ (after area marked owners).chunks ↔ chunk ∈ (harvest area marked owners).chunks :=
  Harvest.mem_owners_chunks collected.kept.long collected.kept.short

/-- The area after the sweep. -/
theorem divided :
    Divided { area with
      memory := swept.memory, chunks := swept.chunks, blocks := swept.blocks }
      (live.filter (· ∈ marked)) (after area marked owners) where
  regions := collected.prepared.divided.regions
  tiled := by
    intro block used
    apply (collected.tiled used).congr
    intro head _
    exact if_neg (collected.prepared.not_atCursor head)
  cursor := fun room => absurd ⟨rfl, room⟩ (collected.prepared.not_atCursor area.cursor)
  chunkChain := by
    rw [after, Harvest.owners_chunks_merged]
    exact collected.kept.chunkChain
  chunk := by
    intro chunk member
    have inHarvest := collected.mem_chunks.mp member
    obtain ⟨size_mod, word, _⟩ := collected.chunk_size inHarvest
    exact ⟨word, size_mod, collected.piece_iff.mpr (.inr ⟨chunk, inHarvest, rfl⟩),
      collected.prepared.not_atCursor chunk.1⟩
  chunksDistinct := by
    rw [after, Harvest.owners_chunks_merged]
    apply collected.kept.chunkChain.nodup
    intro zero
    obtain ⟨chunk, member, null⟩ :=
      (Harvest.mem_merged collected.kept.long collected.kept.short).mp zero
    have := (collected.kept.long chunk (List.mem_append_left _ member)).2
    omega
  blockChain := collected.kept.blockChain
  group := by
    intro group member
    obtain ⟨region, inRegions, low, positive, high, block_mod, size_mod⟩ :=
      Harvest.group_ofArea (collected.prepared.areaTiled marked) member
    refine ⟨collected.kept.blockSizes group member, positive, size_mod, region, inRegions, ?_,
      high⟩
    refine (collected.prepared.divided.regions.mem_blocks inRegions).mpr ⟨block_mod, low, ?_⟩
    unfold gcBlockSize at *
    omega
  groupsAscending := Harvest.ascending_ofArea (collected.prepared.areaTiled marked)
  header := by
    intro head piece _
    rcases collected.piece_iff.mp piece with isMarked | ⟨chunk, member, rfl⟩
    · have isLive := collected.objects head isMarked
      obtain ⟨piece, notCursor⟩ := collected.prepared.divided.object head isLive
      obtain ⟨unmarked, free⟩ := collected.prepared.divided.header head piece notCursor
      dsimp only
      rw [collected.word head isMarked]
      refine ⟨unmarked, iff_of_true (free.mpr isLive) ?_⟩
      exact List.mem_filter.mpr ⟨isLive, decide_eq_true isMarked⟩
    · obtain ⟨size_mod, word, _⟩ := collected.chunk_size member
      dsimp only
      rw [word]
      refine ⟨by simp [hasFlag_of_aligned _ size_mod], iff_of_false (by simp) ?_⟩
      intro survives
      have isMarked := of_decide_eq_true (List.mem_filter.mp survives).2
      have isLive := collected.objects _ isMarked
      obtain ⟨piece, notCursor⟩ := collected.prepared.divided.object _ isLive
      have used := (collected.prepared.divided.header _ piece notCursor).2.mpr isLive
      rw [← collected.word _ isMarked, word, hasFlag_setFlag] at used
      simp at used
  object := by
    intro head member
    exact ⟨collected.piece_iff.mpr (.inl (of_decide_eq_true (List.mem_filter.mp member).2)),
      collected.prepared.not_atCursor head⟩
  liveDistinct := collected.prepared.divided.liveDistinct.filter _

/-- The words of the survivors stay as they are. -/
theorem intact : Intact area.memory swept.memory (live.filter (· ∈ marked)) := by
  intro head member address above below
  have survives := collected.divided.object head member
  have isMarked := of_decide_eq_true (List.mem_filter.mp member).2
  have size : headerSize swept.memory head = headerSize area.memory head := by
    rw [headerSize, headerSize, collected.word head isMarked]
  have pieceSize : Small.pieceSize { area with
      memory := swept.memory, chunks := swept.chunks, blocks := swept.blocks } head =
        headerSize area.memory head := by
    rw [Small.pieceSize, if_neg survives.2, size]
  by_cases first : address = head
  · rw [first, collected.word head isMarked]
  · have away : ∀ other ∈ marked, address ≠ other := by
      rintro other isMarked' rfl
      have member' : address ∈ live.filter (· ∈ marked) :=
        List.mem_filter.mpr ⟨collected.objects address isMarked', decide_eq_true isMarked'⟩
      have large := collected.divided.piece_large (collected.divided.object address member').1
      have apart := collected.divided.pieces_apart survives.1
        (collected.divided.object address member').1 (Ne.symm first)
      omega
    have unmarked : Small.markHeaders area.memory marked address = area.memory address :=
      if_neg fun isMarked' => away address isMarked' rfl
    rw [← unmarked]
    apply collected.kept.frame
    · intro node inHarvest
      rcases List.mem_append.mp inHarvest with chunk | group
      · have piece := collected.divided.chunk node (collected.mem_chunks.mpr chunk)
        have large := collected.divided.piece_large piece.2.2.1
        have different : head ≠ node.1 := by
          intro same
          have word : swept.memory node.1 = setFlag node.2 .free := piece.1
          have used := (collected.divided.header head survives.1 survives.2).2.mpr member
          dsimp only at used
          rw [same, word, hasFlag_setFlag] at used
          simp at used
        have apart := collected.divided.pieces_apart survives.1 piece.2.2.1 different
        omega
      · have apart := collected.divided.piece_group_apart survives.1 group
        have long := (collected.kept.long node inHarvest).1
        omega
    · intro inUnmarked
      have live : address + gcHead ∈ liveObjects area.regions
          (Small.markHeaders area.memory marked) owners.layout := by
        rw [← Harvest.ofArea_unmarked]
        exact List.mem_map_of_mem inUnmarked
      obtain ⟨other, isMarked', same⟩ :=
        (collected.prepared.mem_liveObjects collected.objects).mp live
      exact away other isMarked' (Nat.add_right_cancel same)

end

end Collected

def Small.Sweeping.Lists (marked : List Nat) : Small.Sweeping → Prop
  | .normal => True
  | .selective objects => objects.Nodup ∧ ∀ p, p ∈ objects ↔ ∃ head ∈ marked, p = head + gcHead

theorem Prepared.sweepSmall (prepared : Prepared area live owners)
    (objects : ∀ head ∈ marked, head ∈ live) {sweeping : Small.Sweeping}
    (lists : sweeping.Lists marked) :
    ∃ swept, { area with memory := Small.markHeaders area.memory marked }.sweepSmall sweeping =
        some swept ∧
      Collected area live marked owners swept := by
  cases sweeping with
  | normal =>
      obtain ⟨swept, run, kept⟩ := sweepSmallNormal_kept (prepared.areaTiled marked)
      exact ⟨swept, run, prepared, objects, kept⟩
  | selective array =>
      obtain ⟨swept, run, kept⟩ := sweepSmallSelective_kept (prepared.areaTiled marked) lists.1
        fun p => (lists.2 p).trans (prepared.mem_liveObjects objects).symm
      exact ⟨swept, run, prepared, objects, kept⟩

theorem Divided.collect (divided : Divided area live owners)
    (objects : ∀ head ∈ marked, head ∈ live) {sweeping : Small.Sweeping}
    (lists : sweeping.Lists marked) :
    ∃ after owners', area.collect marked sweeping = some after ∧
      Divided after (live.filter (· ∈ marked)) owners' ∧
      Intact area.memory after.memory (live.filter (· ∈ marked)) := by
  obtain ⟨ready, prepares, prepared, intact, _⟩ := divided.prepareGcSmall
  obtain ⟨swept, sweeps, collected⟩ := prepared.sweepSmall objects lists
  refine ⟨_, _, ?_, collected.divided, Intact.trans ?_ collected.intact⟩
  · simp only [Small.collect, prepares, Option.bind_eq_bind, Option.bind_some, sweeps]
  · exact fun head member => intact head (List.mem_filter.mp member).1

end

end LaTTe.Gc
