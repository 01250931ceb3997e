import LaTTe.Gc.Manual.Tags

namespace LaTTe.Gc.Manual

open LaTTe.Data

/-- A heap with what is known about it outside: the regions it has been given
and the pointers its callers hold. -/
structure Manager where
  heap : GcHeap
  regions : List Region
  allocated : List Nat

def Region.Apart (region other : Region) : Prop :=
  region.stop ≤ other.start ∨ other.stop ≤ region.start

def HasLump (regions : List Region) (layout : Region → List Nat) (p : Nat) : Prop :=
  ∃ region ∈ regions, p ∈ layout region

def IsFree (regions : List Region) (layout : Region → List Nat)
    (allocated : List Nat) (p : Nat) : Prop :=
  HasLump regions layout p ∧ p ∉ allocated

/-- The heap is consistent when its regions are cut into the lumps of `layout`. -/
structure Sound (manager : Manager) (layout : Region → List Nat) : Prop where
  regions : ∀ region ∈ manager.regions,
    RegionOk manager.heap.memory manager.allocated region (layout region)
  apart : ∀ region ∈ manager.regions, ∀ other ∈ manager.regions,
    region ≠ other → region.Apart other
  held : ∀ p ∈ manager.allocated, HasLump manager.regions layout p
  lists : FreeLists manager.heap
    (IsFree manager.regions layout manager.allocated)

theorem FreeLists.ext {heap : GcHeap} {free free' : Nat → Prop}
    (lists : FreeLists heap free) (same : ∀ p, free' p ↔ free p) :
    FreeLists heap free' := by
  have equal : free' = free := by
    funext p
    exact propext (same p)
  rwa [equal]

section

variable {heap heap' : GcHeap} {regions : List Region} {allocated allocated' : List Nat}
  {layout : Region → List Nat} {region : Region}
  {left mid right : List Nat} {entry flag exit : Bool} {start stop : Nat}

section

variable (sound : Sound ⟨heap, regions, allocated⟩ layout)

include sound

theorem Sound.isLump {p : Nat} (lump : HasLump regions layout p) : IsLump p := by
  obtain ⟨region, inRegions, member⟩ := lump
  exact (sound.regions region inRegions).isLump member

theorem Sound.disjoint {p q : Nat}
    (lumpP : HasLump regions layout p) (lumpQ : HasLump regions layout q)
    (different : p ≠ q) :
    p + size heap.memory p ≤ q ∨ q + size heap.memory q ≤ p := by
  obtain ⟨first, inFirst, hp⟩ := lumpP
  obtain ⟨second, inSecond, hq⟩ := lumpQ
  have boundsP := (sound.regions first inFirst).bounds hp
  have boundsQ := (sound.regions second inSecond).bounds hq
  dsimp only at boundsP boundsQ
  cases same : decide (first = second) with
  | true =>
      obtain rfl := of_decide_eq_true same
      exact (sound.regions first inFirst).disjoint hp hq different
  | false =>
      have apart := sound.apart first inFirst second inSecond
        (of_decide_eq_false same)
      unfold Region.Apart at apart
      omega

theorem Sound.last_outside
    (inRegions : region ∈ regions) {p : Nat} (lump : HasLump regions layout p) :
    region.last < p ∨ p + size heap.memory p ≤ region.last := by
  obtain ⟨other, inOther, member⟩ := lump
  have bounds := (sound.regions other inOther).bounds member
  have room := (sound.regions region inRegions).room
  dsimp only at bounds
  unfold Region.last memAlign
  cases same : decide (region = other) with
  | true =>
      obtain rfl := of_decide_eq_true same
      omega
  | false =>
      have apart := sound.apart region inRegions other inOther
        (of_decide_eq_false same)
      unfold Region.Apart at apart
      omega

theorem Sound.last_not_lump
    (inRegions : region ∈ regions) {p : Nat} (lump : HasLump regions layout p) :
    region.last ≠ p := by
  have outside := sound.last_outside inRegions lump
  obtain ⟨other, inOther, member⟩ := lump
  have bounds := (sound.regions other inOther).bounds member
  dsimp only at bounds
  omega

theorem Sound.sameEnding {touched : Nat → Prop} {memory other : Memory}
    (relinked : Relinked touched memory other)
    (away : ∀ p, touched p → region.last ≠ p) (inRegions : region ∈ regions) :
    prev other region.last = prev memory region.last := by
  have room := (sound.regions region inRegions).room
  apply relinked.samePrev _ (sound.regions region inRegions).last_aligned
  · unfold Region.last memAlign
    omega
  · exact fun isTouched => away _ isTouched rfl

end

structure Untouched (memory other : Memory) (q : Nat) : Prop where
  size : size other q = size memory q
  mark : hasFlag (other (header q)) .mark = hasFlag (memory (header q)) .mark
  payload : ∀ address, q ≤ address → address + 4 < q + Gc.size memory q →
    other address = memory address

namespace Untouched

variable {memory other third : Memory} {p q address value : Nat}

theorem refl (memory : Memory) (q : Nat) : Untouched memory memory q :=
  ⟨rfl, rfl, fun _ _ _ => rfl⟩

theorem trans (first : Untouched memory other q) (second : Untouched other third q) :
    Untouched memory third q where
  size := second.size.trans first.size
  mark := second.mark.trans first.mark
  payload := by
    intro address low high
    rw [second.payload address low (by rwa [first.size]), first.payload address low high]

theorem store (kept : Untouched memory other q) (value : Nat) (away : address ≠ header q)
    (outside : address < q ∨ q + Gc.size memory q ≤ address + 4) :
    Untouched memory (other.store address value) q where
  size := (size_congr (Memory.store_other _ _ away.symm)).trans kept.size
  mark := by rw [Memory.store_other _ _ away.symm, kept.mark]
  payload := by
    intro word low high
    rw [Memory.store_other _ _ (by omega), kept.payload word low high]

theorem reflag (kept : Untouched memory other q)
    (same : maskSize value = maskSize (other (header p)))
    (sameMark : header p = header q → hasFlag value .mark = hasFlag (other (header p)) .mark)
    (positive : 0 < p) (outside : p ≤ q ∨ q + Gc.size memory q ≤ p) :
    Untouched memory (other.store (header p) value) q where
  size := (size_reflag same q).trans kept.size
  mark := by
    rw [← kept.mark]
    rcases eq_or_ne (header p) (header q) with same | different
    · rw [← same, Memory.store_same, sameMark same]
    · rw [Memory.store_other _ _ different.symm]
  payload := by
    intro word low high
    have away : word ≠ header p := by
      unfold header gcHead
      omega
    rw [Memory.store_other _ _ away, kept.payload word low high]

theorem relink (kept : Untouched memory other q) (lump : IsLump q) {touched : Nat → Prop}
    (links : LinksOnly touched other third) (sameTags : SameTags other third)
    (away : ∀ r, touched r → r + 16 ≤ q ∨ q + Gc.size memory q ≤ r) :
    Untouched memory third q where
  size := (sameTags.size_eq lump).trans kept.size
  mark := by
    have aligned := lump.aligned
    have positive := lump.positive
    rw [sameTags _ (.inr (by unfold header gcHead; omega)), kept.mark]
  payload := by
    intro word low high
    rw [links word, kept.payload word low high]
    intro r isTouched
    have := away r isTouched
    omega

end Untouched

theorem Sound.free_away (sound : Sound ⟨heap, regions, allocated⟩ layout) {q r : Nat}
    (held : q ∈ allocated) (isFree : IsFree regions layout allocated r) :
    r + size heap.memory r ≤ q ∧ 16 ≤ size heap.memory r ∨ q + size heap.memory q ≤ r := by
  obtain ⟨lump, notHeld⟩ := isFree
  have different : r ≠ q := by
    rintro rfl
    exact notHeld held
  have apart := sound.disjoint lump (sound.held q held) different
  obtain ⟨region, inRegions, member⟩ := lump
  have bounds := (sound.regions region inRegions).bounds member
  dsimp only at bounds
  omega

theorem Sound.size_pos (sound : Sound ⟨heap, regions, allocated⟩ layout) {q : Nat}
    (held : q ∈ allocated) : 16 ≤ size heap.memory q := by
  obtain ⟨region, inRegions, member⟩ := sound.held q held
  exact ((sound.regions region inRegions).bounds member).2.2.1

theorem Sound.relink_untouched (sound : Sound ⟨heap, regions, allocated⟩ layout) {q : Nat}
    (held : q ∈ allocated) {other : Memory}
    (links : LinksOnly (IsFree regions layout allocated) heap.memory other)
    (sameTags : SameTags heap.memory other) : Untouched heap.memory other q := by
  apply (Untouched.refl heap.memory q).relink (sound.isLump (sound.held q held)) links sameTags
  intro r isFree
  have := sound.free_away held isFree
  omega

theorem Sound.allocated_congr (sound : Sound ⟨heap, regions, allocated⟩ layout)
    (same : ∀ p, p ∈ allocated' ↔ p ∈ allocated) :
    Sound ⟨heap, regions, allocated'⟩ layout where
  regions := fun region inRegions => (sound.regions region inRegions).congr
    (fun _ _ _ _ => rfl) rfl (fun p _ => same p)
  apart := sound.apart
  held := fun p member => sound.held p ((same p).mp member)
  lists := sound.lists.ext fun p => by
    simp only [IsFree, same]

private theorem segment_apart
    (before : Segment heap.memory allocated true region.first left entry start)
    (middle : Tiles (size heap'.memory) start mid stop)
    (after : Segment heap.memory allocated flag stop right exit region.last)
    {p : Nat} (outer : p ∈ left ∨ p ∈ right) : p ∉ mid := by
  intro inner
  have inside := middle.mem_bounds inner
  rcases outer with inLeft | inRight
  · have := before.tiles.mem_bounds inLeft
    omega
  · have := after.tiles.mem_bounds inRight
    omega

section

variable (sound : Sound ⟨heap, regions, allocated⟩ layout)

include sound

theorem Sound.beside (inRegions : region ∈ regions) (cut : layout region = left ++ mid ++ right)
    (before : Segment heap.memory allocated true region.first left entry start)
    (old : Segment heap.memory allocated entry start mid flag stop)
    (after : Segment heap.memory allocated flag stop right exit region.last)
    {q : Nat} (lump : HasLump regions layout q) (outer : q ∉ mid) :
    q + size heap.memory q ≤ start ∨ stop ≤ q := by
  obtain ⟨other, inOther, member⟩ := lump
  have room := (sound.regions region inRegions).room
  have bounds := (sound.regions other inOther).bounds member
  have first_eq : region.first = region.start + 16 := rfl
  have last_eq : region.last = region.stop - 32 := rfl
  have beforeLe := before.tiles.le
  have midLe := old.tiles.le
  have afterLe := after.tiles.le
  dsimp only at bounds
  cases same : decide (other = region) with
  | true =>
      obtain rfl := of_decide_eq_true same
      rw [cut, List.mem_append, List.mem_append] at member
      rcases member with (inLeft | inMid) | inRight
      · exact .inl (before.tiles.mem_bounds inLeft).2.2
      · exact absurd inMid outer
      · exact .inr (after.tiles.mem_bounds inRight).1
  | false =>
      have apart := sound.apart other inOther region inRegions (of_decide_eq_false same)
      unfold Region.Apart at apart
      omega

/-- Replace the lumps `mid` of one region by `mid'`. -/
theorem Sound.edit (mid' : List Nat) (flag' : Bool) (inRegions : region ∈ regions)
    (cut : layout region = left ++ mid ++ right)
    (before : Segment heap.memory allocated true region.first left entry start)
    (old : Segment heap.memory allocated entry start mid flag stop)
    (after : Segment heap.memory allocated flag stop right exit region.last)
    (middle : Segment heap'.memory allocated' entry start mid' flag' stop)
    (outside : TagsOutside heap.memory heap'.memory start stop)
    (sameFlag : prevInUse heap'.memory start = prevInUse heap.memory start)
    (sameSize : size heap'.memory stop = size heap.memory stop)
    (sameEnding : ∀ other ∈ regions,
      prev heap'.memory other.last = prev heap.memory other.last)
    (sameUse : ∀ p, p ∉ mid → p ∉ mid' → (p ∈ allocated' ↔ p ∈ allocated))
    (stays : ∀ p ∈ mid, p ∈ allocated' → p ∈ mid')
    (allowed : flag' = flag ∨ flag' = true ∨ ∀ p ∈ right.head?, p ∈ allocated)
    (lists : FreeLists heap' fun p =>
      (IsFree regions layout allocated p ∧ p ∉ mid) ∨ p ∈ mid' ∧ p ∉ allocated') :
    Sound ⟨heap', regions, allocated'⟩
      (fun other => if other = region then left ++ mid' ++ right else layout other) := by
  have regionOk := sound.regions region inRegions
  dsimp only at regionOk
  rw [cut] at regionOk
  have room := regionOk.room
  have first_eq : region.first = region.start + 16 := rfl
  have last_eq : region.last = region.stop - 32 := rfl
  have firstLe := before.tiles.le
  have lastLe := after.tiles.le
  have outerOld : ∀ p, p ∈ left ∨ p ∈ right → p ∉ mid := fun p outer =>
    segment_apart before old.tiles after outer
  have outerNew : ∀ p, p ∈ left ∨ p ∈ right → p ∉ mid' := fun p outer =>
    segment_apart before middle.tiles after outer
  have elsewhere : ∀ other ∈ regions, other ≠ region →
      other.stop ≤ region.start ∨ region.stop ≤ other.start := fun other inOther ne =>
    sound.apart other inOther region inRegions ne
  have away : ∀ other ∈ regions, other ≠ region → ∀ p ∈ layout other,
      p ∉ mid ∧ p ∉ mid' := by
    intro other inOther different p member
    have bounds := (sound.regions other inOther).bounds member
    have apart := elsewhere other inOther different
    dsimp only at bounds
    constructor
    · intro inner
      have := old.tiles.mem_bounds inner
      omega
    · intro inner
      have := middle.tiles.mem_bounds inner
      omega
  refine ⟨?_, sound.apart, ?_, ?_⟩
  · intro other inOther
    dsimp only
    split
    · rename_i same
      rw [same]
      exact regionOk.edit before middle after outside sameFlag sameSize
        (sameEnding region inRegions)
        (fun p outer => sameUse p (outerOld p outer) (outerNew p outer)) allowed
    · rename_i different
      have apart := elsewhere other inOther different
      apply (sound.regions other inOther).congr
      · intro address isTag low high
        dsimp only
        apply outside address isTag
        omega
      · exact sameEnding other inOther
      · intro p member
        exact sameUse p (away other inOther different p member).1
          (away other inOther different p member).2
  · intro p isHeld
    by_cases inner : p ∈ mid'
    · exact ⟨region, inRegions, by simp [inner]⟩
    · have outer : p ∉ mid := fun member => inner (stays p member isHeld)
      obtain ⟨other, inOther, member⟩ :=
        sound.held p ((sameUse p outer inner).mp isHeld)
      refine ⟨other, inOther, ?_⟩
      dsimp only
      split
      · rename_i same
        rw [same, cut] at member
        simp only [List.mem_append] at member ⊢
        tauto
      · exact member
  · apply lists.ext
    intro p
    constructor
    · rintro ⟨⟨other, inOther, member⟩, notHeld⟩
      dsimp only at member
      split at member
      · rename_i same
        by_cases inner : p ∈ mid'
        · exact .inr ⟨inner, notHeld⟩
        · have outer : p ∈ left ∨ p ∈ right := by
            simp only [List.mem_append] at member
            tauto
          have notMid := outerOld p outer
          refine .inl ⟨⟨⟨region, inRegions, ?_⟩, ?_⟩, notMid⟩
          · rw [cut]
            simp only [List.mem_append]
            tauto
          · exact fun isHeld => notHeld ((sameUse p notMid inner).mpr isHeld)
      · rename_i different
        obtain ⟨notMid, notNew⟩ := away other inOther different p member
        exact .inl ⟨⟨⟨other, inOther, member⟩,
          fun isHeld => notHeld ((sameUse p notMid notNew).mpr isHeld)⟩, notMid⟩
    · rintro (⟨⟨⟨other, inOther, member⟩, notHeld⟩, notMid⟩ | ⟨inner, notHeld⟩)
      · cases same : decide (other = region) with
        | true =>
            obtain rfl := of_decide_eq_true same
            rw [cut] at member
            have outer : p ∈ left ∨ p ∈ right := by
              simp only [List.mem_append] at member
              tauto
            refine ⟨⟨other, inOther, ?_⟩, ?_⟩
            · simp only [if_true, List.mem_append]
              tauto
            · exact fun isHeld =>
                notHeld ((sameUse p notMid (outerNew p outer)).mp isHeld)
        | false =>
            have different := of_decide_eq_false same
            refine ⟨⟨other, inOther, by simpa [different] using member⟩, ?_⟩
            exact fun isHeld => notHeld
              ((sameUse p notMid (away other inOther different p member).2).mp isHeld)
      · exact ⟨⟨region, inRegions, by simp [inner]⟩, notHeld⟩

/-- Callers may write to the lumps they hold. -/
theorem Sound.write {p : Nat} (isHeld : p ∈ allocated)
    (same : ∀ address, address < p ∨ p + size heap.memory p ≤ address + 4 →
      heap'.memory address = heap.memory address)
    (sameLists : heap'.lists = heap.lists) :
    Sound ⟨heap', regions, allocated⟩ layout := by
  obtain ⟨region, inRegions, member⟩ := sound.held p isHeld
  have boundsP := (sound.regions region inRegions).bounds member
  dsimp only at boundsP
  have freeAway : ∀ q, IsFree regions layout allocated q →
      4 ≤ q ∧ (q + 16 ≤ p ∨ p + size heap.memory p ≤ q) := by
    rintro q ⟨lump, notHeld⟩
    have different : q ≠ p := by
      rintro rfl
      exact notHeld isHeld
    have apart := sound.disjoint lump ⟨region, inRegions, member⟩ different
    obtain ⟨other, inOther, inLayout⟩ := lump
    have boundsQ := (sound.regions other inOther).bounds inLayout
    dsimp only at boundsQ
    omega
  refine ⟨?_, sound.apart, sound.held, ?_⟩
  · intro other inOther
    cases equal : decide (other = region) with
    | true =>
        obtain rfl := of_decide_eq_true equal
        exact (sound.regions other inOther).payload member isHeld same
    | false =>
        have apart := sound.apart other inOther region inRegions
          (of_decide_eq_false equal)
        have room := (sound.regions other inOther).room
        unfold Region.Apart at apart
        apply (sound.regions other inOther).congr
        · intro address _ low high
          apply same
          omega
        · apply same
          unfold Region.last memAlign
          omega
        · exact fun _ _ => Iff.rfl
  · apply sound.lists.congr sameLists
    · intro q isFree
      have := freeAway q isFree
      exact same q (by omega)
    · intro q isFree
      have := freeAway q isFree
      exact same (q + 4) (by omega)
    · intro q isFree
      have := freeAway q isFree
      apply size_congr
      apply same
      unfold header gcHead
      omega

theorem Sound.reflag {p value : Nat}
    (lump : IsLump p) (sameSize : maskSize value = maskSize (heap.memory (header p)))
    (sameFlag : hasFlag value .prev = hasFlag (heap.memory (header p)) .prev) :
    Sound ⟨heap.setMemory (header p) value, regions, allocated⟩ layout where
  regions := by
    intro region inRegions
    have ok := sound.regions region inRegions
    have aligned := lump.aligned
    have positive := lump.positive
    obtain ⟨exit, tagged⟩ := ok.tagged
    refine ⟨ok.aligned, ok.room, ok.small, ?_, ⟨exit, tagged.congr ?_ ?_ ?_ ?_⟩, ?_, ?_⟩
    · rw [GcHeap.setMemory_memory, prevInUse_resize sameFlag]
      exact ok.firstInUse
    · exact fun q _ => size_reflag sameSize q
    · exact fun q _ => prevInUse_resize sameFlag _
    · intro q member _
      have bounds := ok.bounds member
      have different : footer q (size heap.memory q) ≠ header p := by
        dsimp only at bounds
        unfold footer header gcHead
        omega
      exact Memory.store_other _ _ different
    · exact fun _ _ => Iff.rfl
    · rw [GcHeap.setMemory_memory, size_reflag sameSize]
      exact ok.dummy
    · rw [GcHeap.setMemory_memory, prevInUse_resize sameFlag, nextLump, size_reflag sameSize]
      exact ok.ending
  apart := sound.apart
  held := sound.held
  lists := sound.lists.reflag lump.aligned lump.positive sameSize

theorem Sound.mark {p : Nat} (held : p ∈ allocated) :
    Sound ⟨heap.setMemory (header p) (setFlag (heap.memory (header p)) .mark), regions,
      allocated⟩ layout := by
  apply sound.reflag (sound.isLump (sound.held p held))
  · exact maskSize_setFlag _ _
  · simp

theorem Sound.covers {region : Region}
    (inRegions : region ∈ regions) {address : Nat} (low : region.first ≤ address)
    (high : address < region.last) :
    ∃ r, HasLump regions layout r ∧ r ≤ address ∧ address < r + size heap.memory r := by
  obtain ⟨exit, tagged⟩ := (sound.regions region inRegions).tagged
  obtain ⟨r, member, inside⟩ := tagged.tiles.covers low high
  exact ⟨r, ⟨region, inRegions, member⟩, inside⟩

end

end

end LaTTe.Gc.Manual
