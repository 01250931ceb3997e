import LaTTe.Gc.Small.Selective
import Mathlib.Data.List.Sort

namespace LaTTe.Gc

open LaTTe.Data

/-! The two sweepers leave the same small object area behind. -/

section

variable {items : List Nat}

private theorem sortObjects_eq (items : List Nat) :
    sortObjects items =
      countingPass radixSize (radix 22)
        (countingPass radixSize (radix 11)
          (countingPass radixSize (radix 0) items (fun _ => 0)) (fun _ => 0))
        (fun _ => 0) :=
  rfl

theorem sortObjects_perm (items : List Nat) : (sortObjects items).Perm items := by
  rw [sortObjects_eq]
  have low := @countingPass_perm (radix 0) items _ (fun _ _ => radix_lt _ _) (fun _ => 0)
  exact ((countingPass_perm (fun _ _ => radix_lt _ _) _).trans
    (countingPass_perm (fun _ _ => radix_lt _ _) _)).trans low

theorem mem_sortObjects {p : Nat} : p ∈ sortObjects items ↔ p ∈ items :=
  (sortObjects_perm items).mem_iff

theorem sortObjects_nodup (distinct : items.Nodup) : (sortObjects items).Nodup :=
  (sortObjects_perm items).nodup_iff.mpr distinct

/-- Each pass sorts by eleven more bits. -/
theorem sortObjects_sorted (words : ∀ p ∈ items, p < 2 ^ 32) :
    (sortObjects items).Pairwise (· ≤ ·) := by
  rw [sortObjects_eq]
  have low : (countingPass radixSize (radix 0) items (fun _ => 0)).Pairwise
      fun a b => a % 2 ^ 11 ≤ b % 2 ^ 11 := by
    apply countingPass_sorted (fun _ => 0) (· % 2 ^ 11) (fun _ _ => radix_lt _ _)
    · exact List.pairwise_of_forall fun _ _ => Nat.le_refl _
    · intro a b lt
      unfold radix radixSize at lt
      omega
    · intro a b same _
      unfold radix radixSize at same
      omega
  have middle : (countingPass radixSize (radix 11)
      (countingPass radixSize (radix 0) items (fun _ => 0)) (fun _ => 0)).Pairwise
        fun a b => a % 2 ^ 22 ≤ b % 2 ^ 22 := by
    apply countingPass_sorted (· % 2 ^ 11) (· % 2 ^ 22) (fun _ _ => radix_lt _ _) _ low
    · intro a b lt
      unfold radix radixSize at lt
      omega
    · intro a b same le
      unfold radix radixSize at same
      omega
  have high : (countingPass radixSize (radix 22) (countingPass radixSize (radix 11)
      (countingPass radixSize (radix 0) items (fun _ => 0)) (fun _ => 0))
        (fun _ => 0)).Pairwise fun a b => a % 2 ^ 33 ≤ b % 2 ^ 33 := by
    apply countingPass_sorted (· % 2 ^ 22) (· % 2 ^ 33) (fun _ _ => radix_lt _ _) _ middle
    · intro a b lt
      unfold radix radixSize at lt
      omega
    · intro a b same le
      unfold radix radixSize at same
      omega
  apply high.imp_of_mem
  intro a b ha hb le
  have := words a (mem_sortObjects.mp ha)
  have := words b (mem_sortObjects.mp hb)
  omega

end

section

variable {memory : Memory} {regions : List SmallRegion} {region : SmallRegion}
  {layout : Nat → List Nat}

theorem AreaTiled.survivors_sorted (area : AreaTiled regions memory layout)
    (member : region ∈ regions) :
    (region.blocks.flatMap (region.survivors memory layout)).Pairwise (· < ·) := by
  rw [List.pairwise_flatMap]
  constructor
  · intro block inRegion
    apply (area.survivors_inBlock member inRegion).spaced.ordered.imp
    intro first second ordered
    omega
  · apply (Tiles.spaced (area.blocks_tiled member)).ordered.imp_of_mem
    intro block later inRegion laterIn ordered head inBlock head' inLater
    have bounds := (area.survivors_inBlock member inRegion).spaced.mem_bounds inBlock
    have bounds' := (area.survivors_inBlock member laterIn).spaced.mem_bounds inLater
    have ordered : block + gcBlockSize ≤ later := ordered.2
    unfold firstHeader blockBound at *
    omega

def liveObjects (regions : List SmallRegion) (memory : Memory)
    (layout : Nat → List Nat) : List Nat :=
  regions.flatMap (·.liveObjects memory layout)

theorem AreaTiled.liveObjects_sorted (area : AreaTiled regions memory layout) :
    (liveObjects regions memory layout).Pairwise (· < ·) := by
  rw [liveObjects, List.pairwise_flatMap]
  constructor
  · intro region member
    rw [SmallRegion.liveObjects, List.pairwise_map]
    exact (area.survivors_sorted member).imp fun lt => Nat.add_lt_add_right lt _
  · apply area.ascending.imp_of_mem
    intro region later member laterMember ordered p live p' live'
    have := area.liveObjects_bounds member live
    have := area.liveObjects_bounds laterMember live'
    omega

theorem AreaTiled.liveObjects_range (area : AreaTiled regions memory layout) {p : Nat}
    (live : p ∈ liveObjects regions memory layout) : 0 < p ∧ p < 2 ^ 32 - 1 := by
  obtain ⟨region, member, inRegion⟩ := List.mem_flatMap.mp live
  have := area.liveObjects_bounds member inRegion
  have := area.bounds region member
  have := (area.aligned region member).2
  unfold memAlign gcBlockSize at *
  omega

/-- The sorted array of objects with its sentinels. -/
theorem AreaTiled.sortObjects_eq (area : AreaTiled regions memory layout)
    {objects : List Nat} (distinct : objects.Nodup)
    (listed : ∀ p, p ∈ objects ↔ p ∈ liveObjects regions memory layout) :
    sortObjects (objects ++ [0, 2 ^ 32 - 1]) =
      [0] ++ (liveObjects regions memory layout ++ [2 ^ 32 - 1]) := by
  have range : ∀ p ∈ objects, 0 < p ∧ p < 2 ^ 32 - 1 :=
    fun p member => area.liveObjects_range ((listed p).mp member)
  have sorted : ([0] ++ (liveObjects regions memory layout ++ [2 ^ 32 - 1])).Pairwise
      (· < ·) := by
    rw [List.pairwise_append, List.pairwise_append]
    refine ⟨by simp, ⟨area.liveObjects_sorted, by simp, ?_⟩, ?_⟩
    · intro p live q isLast
      have := area.liveObjects_range live
      rw [List.mem_singleton.mp isLast]
      omega
    · intro q isFirst p behind
      rw [List.mem_singleton.mp isFirst]
      rcases List.mem_append.mp behind with live | isLast
      · exact (area.liveObjects_range live).1
      · rw [List.mem_singleton.mp isLast]
        decide
  have distinctAll : (objects ++ [0, 2 ^ 32 - 1]).Nodup := by
    rw [List.nodup_append]
    refine ⟨distinct, by decide, ?_⟩
    intro p member q sentinel
    have := range p member
    have : q = 0 ∨ q = 2 ^ 32 - 1 := by simpa using sentinel
    omega
  have words : ∀ p ∈ objects ++ [0, 2 ^ 32 - 1], p < 2 ^ 32 := by
    intro p member
    rcases List.mem_append.mp member with inObjects | sentinel
    · have := range p inObjects
      omega
    · have : p = 0 ∨ p = 2 ^ 32 - 1 := by simpa using sentinel
      omega
  apply List.Perm.eq_of_pairwise (fun _ _ _ _ => Nat.le_antisymm)
    (sortObjects_sorted words) (sorted.imp Nat.le_of_lt)
  rw [List.perm_ext_iff_of_nodup (sortObjects_nodup distinctAll)
    (sorted.imp Nat.ne_of_lt)]
  intro p
  rw [mem_sortObjects, List.mem_append, listed]
  simp only [List.mem_append, List.mem_cons, List.not_mem_nil, or_false]
  tauto

theorem sweepSmallSelective_kept (area : AreaTiled regions memory layout)
    {objects : List Nat} (distinct : objects.Nodup)
    (listed : ∀ p, p ∈ objects ↔ p ∈ liveObjects regions memory layout) :
    ∃ swept, sweepSmallSelective regions objects memory = some swept ∧
      Kept memory (Harvest.ofArea memory layout regions) swept := by
  have before : ∀ p ∈ [0], ∀ region ∈ regions, p < region.start := by
    intro p sentinel region member
    rw [List.mem_singleton.mp sentinel]
    exact (area.bounds region member).1
  obtain ⟨rest, swept, run, kept⟩ := sweepRegionsSelective_spec area before
    (initFreeindex_built memory) (by simp [Harvest.Clear, Harvest.spans])
  have kept : Built memory (Harvest.ofArea memory layout regions) swept := by
    rw [← Harvest.empty_append (Harvest.ofArea memory layout regions)]
    exact kept
  refine ⟨_, ?_, mergeFreeindex_kept kept⟩
  rw [sweepSmallSelective, area.sortObjects_eq distinct listed, liveObjects]
  simp only [run, Option.bind_eq_bind, Option.bind_some]

namespace Harvest

@[simp] theorem between_unmarked (size : Nat → Nat) (lo : Nat) (heads : List Nat) :
    (between size lo heads).unmarked = heads := by
  induction heads generalizing lo with
  | nil => rfl
  | cons first rest ih => simp [between, ih]

theorem ofRegion_unmarked (size : Nat → Nat) (live : Nat → List Nat) (start stop : Nat)
    (blocks : List Nat) :
    (ofRegion size live start blocks stop).unmarked = blocks.flatMap live := by
  induction blocks generalizing start with
  | nil => simp [ofRegion]
  | cons block rest ih =>
      rw [ofRegion, List.flatMap_cons]
      split
      · rename_i free
        rw [ih, free, List.nil_append]
      · simp [ofBlock, ih]

theorem ofArea_unmarked (memory : Memory) (layout : Nat → List Nat)
    (regions : List SmallRegion) :
    (ofArea memory layout regions).unmarked.map (· + gcHead) =
      liveObjects regions memory layout := by
  induction regions with
  | nil => rfl
  | cons region rest ih =>
      rw [ofArea, append_unmarked, List.map_append, ih, ofRegion_unmarked]
      rfl

end Harvest

theorem Kept.survivor {swept : Swept} {p : Nat}
    (kept : Kept memory (Harvest.ofArea memory layout regions) swept)
    (live : p ∈ liveObjects regions memory layout) :
    swept.memory (header p) = clearFlag (memory (header p)) .mark := by
  rw [← Harvest.ofArea_unmarked] at live
  obtain ⟨head, member, rfl⟩ := List.mem_map.mp live
  rw [header_add]
  exact kept.cleared head member

/-- For an array that lists the marked objects once each, in any order, both sweepers
return and leave the same memory, with the same free chunks and the same free blocks
in it, and the survivors unmarked. -/
theorem sweepSmallSelective_agrees_with_sweepSmallNormal
    (area : AreaTiled regions memory layout)
    {objects : List Nat} (distinct : objects.Nodup)
    (listed : ∀ p, p ∈ objects ↔ p ∈ liveObjects regions memory layout) :
    ∃ swept chunks blocks,
      sweepSmallSelective regions objects memory = some swept ∧
      sweepSmallNormal regions memory = some swept ∧
      Chain (link swept.memory) swept.chunks chunks 0 ∧
      Chain (link swept.memory) swept.blocks blocks 0 ∧
      ∀ p ∈ objects, swept.memory (header p) = clearFlag (memory (header p)) .mark := by
  obtain ⟨selective, runSelective, keptSelective⟩ :=
    sweepSmallSelective_kept area distinct listed
  obtain ⟨normal, runNormal, keptNormal⟩ := sweepSmallNormal_kept area
  obtain rfl := keptSelective.unique keptNormal
  exact ⟨selective, _, _, runSelective, runNormal, keptSelective.chunkChain,
    keptSelective.blockChain,
    fun p member => keptSelective.survivor ((listed p).mp member)⟩

end

def sampleRegion : SmallRegion where
  start := 4096
  stop := 12288
  table := fun _ => 1#32

def sampleMemory : Memory := fun address =>
  if address = 4100 then setFlag 16 .free
  else if address = 4116 then setFlag 24 .mark
  else if address = 4140 then setFlag 4048 .free
  else 0

def sampleLayout (_ : Nat) : List Nat :=
  [4100, 4116, 4140]

theorem sampleRegion_tiled : AreaTiled [sampleRegion] sampleMemory sampleLayout where
  aligned := by decide
  bounds := by decide
  ascending := by simp
  tiled := by
    intro region member block inRegion used
    obtain rfl := List.mem_singleton.mp member
    have blocks : sampleRegion.blocks = [4096, 8192] := by decide
    have which : block = 4096 ∨ block = 8192 := by simpa [blocks] using inRegion
    rcases which with rfl | rfl
    · exact ⟨rfl, by decide, rfl, by decide, rfl, by decide, rfl⟩
    · exact absurd used (by decide)

theorem sweepSmallSelective_agrees_with_sweepSmallNormal_sample :
    ∃ swept chunks blocks,
      sweepSmallSelective [sampleRegion] [4120] sampleMemory = some swept ∧
      sweepSmallNormal [sampleRegion] sampleMemory = some swept ∧
      Chain (link swept.memory) swept.chunks chunks 0 ∧
      Chain (link swept.memory) swept.blocks blocks 0 ∧
      ∀ p ∈ [4120], swept.memory (header p) = clearFlag (sampleMemory (header p)) .mark := by
  have live : liveObjects [sampleRegion] sampleMemory sampleLayout = [4120] := by decide
  exact sweepSmallSelective_agrees_with_sweepSmallNormal sampleRegion_tiled (by decide)
    (fun p => by rw [live])

end LaTTe.Gc
