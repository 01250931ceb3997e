import LaTTe.Gc.Manual.Allocate

namespace LaTTe.Gc.Manual

open LaTTe.Data

section

variable {heap heap' : GcHeap} {regions : List Region} {allocated : List Nat}
  {layout : Region → List Nat} {region : Region} {p stop : Nat}
  {left mid right : List Nat} {flag exit : Bool}

section

variable (sound : Sound ⟨heap, regions, allocated⟩ layout)

include sound

theorem Sound.cut_held (isHeld : p ∈ allocated) :
    ∃ region ∈ regions, ∃ left right exit, layout region = left ++ [p] ++ right ∧
      Segment heap.memory allocated true region.first left
        (prevInUse heap.memory p) p ∧
      Tagged heap.memory allocated (prevInUse heap.memory p) p ∧
      Segment heap.memory allocated true (p + size heap.memory p) right exit
        region.last := by
  obtain ⟨region, inRegions, member⟩ := sound.held p isHeld
  have regionOk := sound.regions region inRegions
  obtain ⟨exit, tagged⟩ := regionOk.tagged
  obtain ⟨left, right, cut⟩ := List.append_of_mem member
  dsimp only at tagged
  rw [cut] at tagged
  obtain ⟨entry, start, before, rfl, tags, after⟩ := Segment.append_iff.mp tagged
  have entry_eq : prevInUse heap.memory p = entry := before.exit_eq regionOk.firstInUse
  rw [decide_eq_true isHeld] at after
  rw [entry_eq]
  exact ⟨region, inRegions, left, right, exit, by simp [cut], before, tags, after⟩

/-- Tag and list a lump that covers `mid`. -/
theorem Sound.returnLump (inRegions : region ∈ regions) (cut : layout region = left ++ mid ++ right)
    (before : Segment heap.memory allocated true region.first left true p)
    (old : Segment heap.memory allocated true p mid flag stop)
    (after : Segment heap.memory allocated flag stop right exit region.last)
    (isHeld : p ∈ allocated)
    (inMid : p ∈ mid)
    (onlyHeld : ∀ q ∈ mid, q ∈ allocated → q = p)
    (usedNext : ∀ q ∈ right.head?, q ∈ allocated)
    (outside : TagsOutside heap.memory heap'.memory p stop)
    (covers : p + size heap'.memory p = stop)
    (sameFlag : prevInUse heap'.memory p = prevInUse heap.memory p)
    (sameSize : size heap'.memory stop = size heap.memory stop)
    (sameEnding : ∀ other ∈ regions,
      prev heap'.memory other.last = prev heap.memory other.last)
    (lists : FreeLists heap' fun q =>
      IsFree regions layout allocated q ∧ q ∉ mid)
    (kept : ∀ q ∈ allocated, q ≠ p → Untouched heap.memory heap'.memory q) :
    ∃ final layout', Manual.returnLump heap' p = some final ∧
      Sound ⟨final, regions, allocated.filter (· ≠ p)⟩ layout' ∧
      ∀ q ∈ allocated, q ≠ p → Untouched heap.memory final.memory q := by
  have lump := sound.isLump (sound.held p isHeld)
  have aligned := lump.aligned
  have positive := lump.positive
  have alignedStop := (old.aligned aligned).1
  have longer : p < stop := by
    have := old.tiles.mem_bounds inMid
    omega
  generalize size_eq : size heap'.memory p = total at covers
  have headerP : header p = p - 4 := rfl
  have headerStop : header stop = stop - 4 := rfl
  have footerP : footer p total = stop - 8 := by
    unfold footer gcHead
    omega
  let tagged := heap'.setMemory (footer p total) total
  have taggedHeader : ∀ q, q % 16 = 0 → 0 < q →
      tagged.memory (header q) = heap'.memory (header q) := by
    intro q alignedQ positiveQ
    apply Memory.store_other
    unfold header gcHead
    omega
  have next_eq : nextLump tagged.memory p = stop := by
    rw [nextLump, size_congr (taggedHeader p aligned positive), size_eq, covers]
  have unused_eq : markUnused tagged p = tagged.setMemory (header stop)
      (clearFlag (tagged.memory (header stop)) .prev) := by
    rw [markUnused, next_eq]
  generalize isUnused : markUnused tagged p = unused at unused_eq
  have unusedLists : FreeLists unused
      fun q => IsFree regions layout allocated q ∧ q ∉ mid := by
    rw [unused_eq]
    exact (lists.setFooter total (by omega)).reflag alignedStop (by omega)
      (maskSize_clearFlag _ _)
  obtain ⟨final, run, finalLists, relinked⟩ :=
    insertFreelump_spec unusedLists lump (fun free => free.1.2 isHeld)
  -- the final memory at the tags of the lump
  have finalTag : ∀ address, address % 16 = 8 ∨ address % 16 = 12 →
      address ≠ header stop → address ≠ footer p total →
      final.memory address = heap'.memory address := by
    intro address isTag notStop notFooter
    rw [relinked.sameTags address isTag, unused_eq, GcHeap.setMemory_memory,
      Memory.store_other _ _ notStop, GcHeap.setMemory_memory,
      Memory.store_other _ _ notFooter]
  have finalP : final.memory (header p) = heap'.memory (header p) :=
    finalTag _ (.inr (by omega)) (by omega) (by omega)
  have finalFooter : final.memory (footer p total) = total := by
    rw [relinked.sameTags _ (.inl (by omega)), unused_eq, GcHeap.setMemory_memory,
      Memory.store_other _ _ (by omega), GcHeap.setMemory_memory, Memory.store_same]
  have finalStop : final.memory (header stop) =
      clearFlag (heap'.memory (header stop)) .prev := by
    rw [relinked.sameTags _ (.inr (by omega)), unused_eq, GcHeap.setMemory_memory,
      Memory.store_same, taggedHeader stop alignedStop (by omega)]
  have finalSize : size final.memory p = total := by
    rw [size_congr finalP, size_eq]
  have notHeld : p ∉ allocated.filter (· ≠ p) := by simp
  refine ⟨final, _, ?_, sound.edit [p] false inRegions cut before old after
    ?_ ?_ ?_ ?_ ?_ ?_ ?_ ?_ ?_, ?_⟩
  · rw [Manual.returnLump, size_eq, isUnused]
    exact run
  · refine ⟨rfl, ⟨?_, ?_, ?_, ?_⟩, (decide_eq_false notHeld).symm, ?_⟩
    · rw [finalSize]
      omega
    · rw [finalSize]
      omega
    · rw [nextLump, finalSize, covers, prevInUse, finalStop, decide_eq_false notHeld]
      simp
    · intro _
      rw [finalSize]
      exact ⟨rfl, finalFooter⟩
    · rw [nextLump, finalSize, covers]
  · intro address isTag outer
    rw [finalTag address isTag (by omega) (by omega)]
    exact outside address isTag outer
  · rw [prevInUse_congr finalP, sameFlag]
  · rw [size, finalStop, maskSize_clearFlag, ← size, sameSize]
  · intro other inOther
    have alignedLast := (sound.regions other inOther).last_aligned
    rw [sound.sameEnding relinked ?_ inOther, unused_eq, GcHeap.setMemory_memory,
      prev_setTag (.inr (by omega)) alignedLast, GcHeap.setMemory_memory,
      prev_setTag (.inl (by omega)) alignedLast]
    · exact sameEnding other inOther
    · rintro q (rfl | free)
      · exact sound.last_not_lump inOther (sound.held q isHeld)
      · exact sound.last_not_lump inOther free.1.1
  · intro q notOld notNew
    simp only [List.mem_singleton] at notNew
    simp [notNew]
  · intro q member isKept
    simp only [List.mem_filter, decide_eq_true_eq] at isKept
    exact absurd (onlyHeld q member isKept.1) isKept.2
  · exact .inr (.inr usedNext)
  · apply finalLists.ext
    intro q
    simp only [List.mem_singleton]
    constructor
    · rintro (free | ⟨rfl, _⟩)
      · exact .inr free
      · exact .inl rfl
    · rintro (rfl | free)
      · exact .inr ⟨rfl, notHeld⟩
      · exact .inl free
  · intro q held different
    have lumpQ := sound.isLump (sound.held q held)
    have positiveQ := lumpQ.positive
    have sizeQ := sound.size_pos held
    have headerQ : header q = q - 4 := rfl
    have beside := sound.beside inRegions cut before old after (sound.held q held)
      fun inMid => different (onlyHeld q inMid held)
    have keepsFooter : Untouched heap.memory tagged.memory q := by
      apply (kept q held different).store
      · omega
      · omega
    have keepsFlag : Untouched heap.memory unused.memory q := by
      rw [unused_eq]
      exact keepsFooter.reflag (maskSize_clearFlag _ _) (fun _ => mark_clearFlag_prev _)
        (by omega) (by omega)
    apply keepsFlag.relink lumpQ (insertFreelump_linksOnly unusedLists (sizeClass_lt _) run)
      relinked.sameTags
    rintro r (rfl | free)
    · have rounded := (old.aligned aligned).2
      omega
    · have := sound.free_away held free.1
      omega

/-- The next lump is free and becomes part of the one given back. -/
theorem Sound.mergeNext (isHeld : p ∈ allocated) (notHeld : p + size heap.memory p ∉ allocated)
    (inRegions : region ∈ regions)
    (cut : layout region = left ++ [p] ++ (p + size heap.memory p) :: right)
    (before : Segment heap.memory allocated true region.first left true p)
    (tags : Tagged heap.memory allocated true p)
    (tagsNext : Tagged heap.memory allocated true (p + size heap.memory p))
    (behind : Segment heap.memory allocated false
      (nextLump heap.memory (p + size heap.memory p)) right exit region.last) :
    ∃ final layout', Manual.returnLump (coalesceNext heap p) p = some final ∧
      Sound ⟨final, regions, allocated.filter (· ≠ p)⟩ layout' ∧
      ∀ q ∈ allocated, q ≠ p → Untouched heap.memory final.memory q := by
  have nextP : nextLump heap.memory p = p + size heap.memory p := rfl
  generalize follower_eq : p + size heap.memory p = follower at *
  have cut' : layout region = left ++ [p, follower] ++ right := by simp [cut]
  have isFree : IsFree regions layout allocated follower :=
    ⟨⟨region, inRegions, by simp [cut]⟩, notHeld⟩
  have lump := sound.isLump (sound.held p isHeld)
  have aligned := lump.aligned
  have positive := lump.positive
  have roundedP := tags.rounded
  have roundedNext := tagsNext.rounded
  have positiveP := tags.positive
  obtain ⟨lists, relinked⟩ := removeFreelump_spec sound.lists isFree
  have links := removeFreelump_linksOnly sound.lists isFree
    (sizeClass (size heap.memory follower))
  dsimp only at lists relinked links
  have sizeP := relinked.sameTags.size_eq lump
  have sizeNext := relinked.sameTags.size_eq (sound.isLump isFree.1)
  generalize removed_eq : removeFreelump heap follower
    (sizeClass (size heap.memory follower)) = removed at *
  let merged := size heap.memory p + size heap.memory follower
  let word := merged ||| flagBits (removed.memory (header p))
  have maskWord : maskSize word = merged := maskSize_or_flagBits _ (by omega)
  have flagWord : hasFlag word .prev = hasFlag (removed.memory (header p)) .prev :=
    hasFlag_or_flagBits _ _ (by omega)
  have headerP : header p = p - 4 := rfl
  have coalesced : coalesceNext heap p = removed.setMemory (header p) word := by
    rw [coalesceNext, nextP, tagsNext.flag, decide_eq_false notHeld,
      if_neg Bool.false_ne_true]
    dsimp only
    rw [removed_eq, sizeP, sizeNext]
  rw [coalesced]
  have old : Segment heap.memory allocated true p [p, follower] false
      (nextLump heap.memory follower) :=
    ⟨rfl, tags, nextP.symm, by rwa [decide_eq_true isHeld],
      (decide_eq_false notHeld).symm, rfl⟩
  refine sound.returnLump inRegions cut' before old behind isHeld (by simp)
    ?_ ?_ ?_ ?_ ?_ ?_ ?_ ?_ ?_
  · intro q member held
    rcases List.mem_pair.mp member with rfl | rfl
    · rfl
    · exact absurd held notHeld
  · intro q isHead
    cases right with
    | nil => simp at isHead
    | cons first rest =>
        obtain rfl : first = q := by simpa using isHead
        obtain ⟨rfl, tagsFirst, _⟩ := behind
        exact Classical.byContradiction fun free =>
          absurd (tagsFirst.free free).1 Bool.false_ne_true
  · apply (TagsOutside.of_sameTags relinked.sameTags _ _).trans
    apply TagsOutside.store
    · omega
    · unfold nextLump
      omega
  · rw [size, GcHeap.setMemory_memory, Memory.store_same, maskWord, nextLump]
    omega
  · rw [GcHeap.setMemory_memory, prevInUse_resize flagWord]
    exact prevInUse_congr (relinked.sameTags.header_eq aligned positive)
  · apply size_congr
    rw [GcHeap.setMemory_memory, Memory.store_other]
    · apply relinked.sameTags.header_eq <;> unfold nextLump <;> omega
    · unfold nextLump header gcHead
      omega
  · intro other inOther
    rw [GcHeap.setMemory_memory,
      prev_setTag (.inr (by omega)) (sound.regions other inOther).last_aligned]
    exact sound.sameEnding relinked (fun q free => sound.last_not_lump inOther free.1) inOther
  · apply (lists.setHeader word lump fun free => free.1.2 isHeld).ext
    intro q
    simp only [List.mem_cons, List.not_mem_nil, or_false, not_or]
    constructor
    · rintro ⟨free, _, different⟩
      exact ⟨free, different⟩
    · rintro ⟨free, different⟩
      refine ⟨free, ?_, different⟩
      rintro rfl
      exact free.2 isHeld
  · intro q held different
    have beside := sound.disjoint (sound.held q held) (sound.held p isHeld) different
    have sizeQ := sound.size_pos held
    have positiveQ := (sound.isLump (sound.held q held)).positive
    apply (sound.relink_untouched held links relinked.sameTags).store
    · unfold header gcHead
      omega
    · omega

/-- What `coalesceNext` and `returnLump` do to a lump behind one in use. -/
theorem Sound.release (isHeld : p ∈ allocated) (inUse : prevInUse heap.memory p = true) :
    ∃ final layout', Manual.returnLump (coalesceNext heap p) p = some final ∧
      Sound ⟨final, regions, allocated.filter (· ≠ p)⟩ layout' ∧
      ∀ q ∈ allocated, q ≠ p → Untouched heap.memory final.memory q := by
  obtain ⟨region, inRegions, left, right, exit, cut, before, tags, after⟩ :=
    sound.cut_held isHeld
  rw [inUse] at before tags
  have single : Segment heap.memory allocated true p [p] true
      (p + size heap.memory p) :=
    ⟨rfl, tags, (decide_eq_true isHeld).symm, rfl⟩
  have nextP : nextLump heap.memory p = p + size heap.memory p := rfl
  have whole : coalesceNext heap p = heap →
      (∀ q ∈ right.head?, q ∈ allocated) →
      ∃ final layout', Manual.returnLump (coalesceNext heap p) p = some final ∧
        Sound ⟨final, regions, allocated.filter (· ≠ p)⟩ layout' ∧
        ∀ q ∈ allocated, q ≠ p → Untouched heap.memory final.memory q := by
    intro unchanged usedNext
    rw [unchanged]
    refine sound.returnLump inRegions cut before single after isHeld (by simp)
      (fun q member _ => by simpa using member) usedNext (fun _ _ _ => rfl) rfl rfl rfl
      (fun _ _ => rfl) (sound.lists.ext fun q => ?_) fun q _ _ => .refl _ q
    simp only [IsFree, List.mem_singleton]
    constructor
    · exact fun free => free.1
    · rintro ⟨isLump, notHeld⟩
      refine ⟨⟨isLump, notHeld⟩, ?_⟩
      rintro rfl
      exact notHeld isHeld
  cases right with
  | nil =>
      obtain ⟨_, last_eq⟩ := after
      apply whole
      · rw [coalesceNext, nextP, ← last_eq,
          (sound.regions region inRegions).ending, if_pos rfl]
      · simp
  | cons after rest =>
      obtain ⟨rfl, tagsNext, behind⟩ := after
      cases nextHeld : decide (p + size heap.memory p ∈ allocated) with
      | true =>
          apply whole
          · rw [coalesceNext, nextP, tagsNext.flag, nextHeld, if_pos rfl]
          · intro q isHead
            obtain rfl : p + size heap.memory p = q := by simpa using isHead
            exact of_decide_eq_true nextHeld
      | false =>
          have notHeld := of_decide_eq_false nextHeld
          exact sound.mergeNext isHeld notHeld inRegions cut before tags tagsNext
            (by rwa [nextHeld] at behind)

/-- The previous lump is free and becomes part of the one given back. -/
theorem Sound.mergePrev (isHeld : p ∈ allocated) (notInUse : prevInUse heap.memory p = false)
    (inRegions : region ∈ regions)
    (cut : layout region = left ++ [p] ++ right)
    (before : Segment heap.memory allocated true region.first left false p)
    (tags : Tagged heap.memory allocated false p)
    (after : Segment heap.memory allocated true (p + size heap.memory p) right exit
      region.last) :
    ∃ layout', Sound ⟨(coalescePrev heap p).1, regions,
        (coalescePrev heap p).2 :: allocated.filter (· ≠ p)⟩ layout' ∧
      prevInUse (coalescePrev heap p).1.memory (coalescePrev heap p).2 = true ∧
      (coalescePrev heap p).2 ∉ allocated.filter (· ≠ p) ∧
      ∀ q ∈ allocated, q ≠ p → Untouched heap.memory (coalescePrev heap p).1.memory q := by
  obtain ⟨rest, previous, rfl⟩ : ∃ rest previous, left = rest ++ [previous] := by
    rcases List.eq_nil_or_concat left with rfl | found
    · exact absurd before.1 Bool.false_ne_true
    · simpa using found
  obtain ⟨entry, start, beforePrev, rfl, tagsPrev, exit_eq, stop_eq⟩ :=
    Segment.append_iff.mp before
  have notHeld : previous ∉ allocated := of_decide_eq_false exit_eq.symm
  obtain ⟨rfl, footer_eq⟩ := tagsPrev.free notHeld
  have isFree : IsFree regions layout allocated previous :=
    ⟨⟨region, inRegions, by simp [cut]⟩, notHeld⟩
  have lump := sound.isLump (sound.held p isHeld)
  have lumpPrev := sound.isLump isFree.1
  have aligned := lump.aligned
  have alignedPrev := lumpPrev.aligned
  have positivePrev := lumpPrev.positive
  have roundedP := tags.rounded
  have roundedPrev := tagsPrev.rounded
  have positive := tagsPrev.positive
  have positiveP := tags.positive
  have next_eq : p = previous + size heap.memory previous := stop_eq
  have prev_eq : prevLump heap.memory p = previous := by
    have footerPrev : p - 8 = footer previous (size heap.memory previous) := by
      unfold footer gcHead
      omega
    rw [prevLump, footerPrev, footer_eq]
    omega
  obtain ⟨lists, relinked⟩ := removeFreelump_spec sound.lists isFree
  have links := removeFreelump_linksOnly sound.lists isFree
    (sizeClass (size heap.memory previous))
  dsimp only at lists relinked links
  have sizeP := relinked.sameTags.size_eq lump
  have sizePrev := relinked.sameTags.size_eq lumpPrev
  generalize removed_eq : removeFreelump heap previous
    (sizeClass (size heap.memory previous)) = removed at *
  let merged := size heap.memory previous + size heap.memory p
  let word := merged ||| flagBits (removed.memory (header previous))
  have maskWord : maskSize word = merged := maskSize_or_flagBits _ (by omega)
  have flagWord : hasFlag word .prev =
      hasFlag (removed.memory (header previous)) .prev :=
    hasFlag_or_flagBits _ _ (by omega)
  have coalesced : coalescePrev heap p =
      (removed.setMemory (header previous) word, previous) := by
    rw [coalescePrev, notInUse, if_neg Bool.false_ne_true, prev_eq]
    dsimp only
    rw [removed_eq, sizeP, sizePrev]
  rw [coalesced]
  dsimp only
  have headerPrev : header previous = previous - 4 := rfl
  have flags : ∀ q, q % 16 = 0 → 0 < q →
      prevInUse (removed.setMemory (header previous) word).memory q =
        prevInUse heap.memory q := by
    intro q alignedQ positiveQ
    rw [GcHeap.setMemory_memory, prevInUse_resize flagWord]
    exact prevInUse_congr (relinked.sameTags.header_eq alignedQ positiveQ)
  have sizeMerged :
      size (removed.setMemory (header previous) word).memory previous = merged := by
    rw [size, GcHeap.setMemory_memory, Memory.store_same, maskWord]
  have old : Segment heap.memory allocated true previous [previous, p] true
      (p + size heap.memory p) :=
    ⟨rfl, tagsPrev, stop_eq, by rwa [decide_eq_false notHeld],
      (decide_eq_true isHeld).symm, rfl⟩
  have cut' : layout region = rest ++ [previous, p] ++ right := by simp [cut]
  have dropped : previous ∉ allocated.filter (· ≠ p) := by simp [notHeld]
  have inUseFirst : prevInUse heap.memory previous = true :=
    beforePrev.exit_eq (sound.regions region inRegions).firstInUse
  refine ⟨_, sound.edit [previous] true inRegions cut' beforePrev old after
    ?_ ?_ ?_ ?_ ?_ ?_ ?_ ?_ ?_, ?_, dropped, ?_⟩
  · refine ⟨rfl, ⟨?_, ?_, ?_, ?_⟩, by simp, ?_⟩
    · rw [sizeMerged]
      omega
    · rw [sizeMerged]
      omega
    · rw [nextLump, sizeMerged,
        show previous + merged = p + size heap.memory p by omega,
        flags _ (by omega) (by omega)]
      have flag := tags.flag
      rw [decide_eq_true isHeld] at flag
      simpa [nextLump] using flag
    · exact fun free => absurd List.mem_cons_self free
    · rw [nextLump, sizeMerged]
      omega
  · apply (TagsOutside.of_sameTags relinked.sameTags _ _).trans
    apply TagsOutside.store <;> omega
  · exact flags previous alignedPrev positivePrev
  · apply size_congr
    rw [GcHeap.setMemory_memory, Memory.store_other]
    · exact relinked.sameTags.header_eq (by omega) (by omega)
    · unfold header gcHead
      omega
  · intro other inOther
    rw [GcHeap.setMemory_memory,
      prev_setTag (.inr (by omega)) (sound.regions other inOther).last_aligned]
    exact sound.sameEnding relinked (fun q free => sound.last_not_lump inOther free.1) inOther
  · intro q notOld _
    simp only [List.mem_cons, List.not_mem_nil, or_false, not_or] at notOld
    simp [notOld.1, notOld.2]
  · intro q member isKept
    rcases List.mem_pair.mp member with rfl | rfl
    · simp
    · rcases List.mem_cons.mp isKept with same | kept
      · simp [same]
      · simp at kept
  · exact .inr (.inl rfl)
  · apply (lists.setHeader word lumpPrev fun free => free.2 rfl).ext
    intro q
    simp only [List.mem_cons, List.not_mem_nil, or_false, not_or]
    constructor
    · rintro (⟨free, different, _⟩ | ⟨rfl, notKept, _⟩)
      · exact ⟨free, different⟩
      · exact absurd rfl notKept
    · rintro ⟨free, different⟩
      refine .inl ⟨free, different, ?_⟩
      rintro rfl
      exact free.2 isHeld
  · rw [flags previous alignedPrev positivePrev, inUseFirst]
  · intro q held _
    have beside := sound.free_away held isFree
    have sizeQ := sound.size_pos held
    have positiveQ := (sound.isLump (sound.held q held)).positive
    apply (sound.relink_untouched held links relinked.sameTags).store
    · unfold header gcHead
      omega
    · omega

theorem coalescePrev_sound (isHeld : p ∈ allocated) :
    ∃ layout', Sound ⟨(coalescePrev heap p).1, regions,
        (coalescePrev heap p).2 :: allocated.filter (· ≠ p)⟩ layout' ∧
      prevInUse (coalescePrev heap p).1.memory (coalescePrev heap p).2 = true ∧
      (coalescePrev heap p).2 ∉ allocated.filter (· ≠ p) ∧
      ∀ q ∈ allocated, q ≠ p → Untouched heap.memory (coalescePrev heap p).1.memory q := by
  cases inUse : prevInUse heap.memory p with
  | true =>
      rw [coalescePrev, inUse, if_pos rfl]
      refine ⟨layout, sound.allocated_congr ?_, inUse, by simp, fun q _ _ => .refl _ q⟩
      intro q
      simp only [List.mem_cons, List.mem_filter, decide_eq_true_eq]
      constructor
      · rintro (rfl | ⟨held, _⟩)
        · exact isHeld
        · exact held
      · intro held
        by_cases same : q = p
        · exact .inl same
        · exact .inr ⟨held, same⟩
  | false =>
      obtain ⟨region, inRegions, left, right, exit, cut, before, tags, after⟩ :=
        sound.cut_held isHeld
      rw [inUse] at before tags
      exact sound.mergePrev isHeld inUse inRegions cut before tags after

theorem memFree_sound (isHeld : p ∈ allocated) :
    ∃ final layout', memFree heap p = some final ∧
      Sound ⟨final, regions, allocated.filter (· ≠ p)⟩ layout' ∧
      ∀ q ∈ allocated, q ≠ p → Untouched heap.memory final.memory q := by
  have nonzero : p ≠ 0 := by
    have := (sound.isLump (sound.held p isHeld)).positive
    omega
  obtain ⟨middle, coalesced, inUse, dropped, keepsPrev⟩ := coalescePrev_sound sound isHeld
  obtain ⟨final, layout', run, released, keepsNext⟩ :=
    coalesced.release List.mem_cons_self inUse
  refine ⟨final, layout', ?_, released.allocated_congr ?_, ?_⟩
  · rw [memFree, if_neg nonzero]
    exact run
  · intro q
    rw [List.filter_cons_of_neg (by simp)]
    constructor
    · intro kept
      refine List.mem_filter.mpr ⟨kept, ?_⟩
      simp only [decide_eq_true_eq]
      rintro rfl
      exact dropped kept
    · exact fun kept => (List.mem_filter.mp kept).1
  · intro q held different
    have kept : q ∈ allocated.filter (· ≠ p) :=
      List.mem_filter.mpr ⟨held, by simpa using different⟩
    refine (keepsPrev q held different).trans
      (keepsNext q (List.mem_cons_of_mem _ kept) ?_)
    rintro rfl
    exact dropped kept

end

end

end LaTTe.Gc.Manual
