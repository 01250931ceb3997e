import LaTTe.Gc.Manual.Sound

namespace LaTTe.Gc.Manual

open LaTTe.Data

section

variable {heap heap' : GcHeap} {regions : List Region} {allocated : List Nat}
  {layout : Region → List Nat} {p rounded : Nat}

/-- What `splitLump` writes: the tags of the two parts, and links of free lumps. -/
structure SplitInto (free : Nat → Prop) (memory other : Memory) (p front back : Nat) : Prop where
  frontHeader : other (header p) = front ||| flagBits (memory (header p))
  backHeader : other (header (p + front)) = back
  backFooter : other (footer (p + front) back) = back
  sameTags : ∀ address, address % 16 = 8 ∨ address % 16 = 12 → address ≠ header p →
    address ≠ header (p + front) → address ≠ footer (p + front) back →
    other address = memory address
  samePrev : ∀ q, q % 16 = 0 → 0 < q → q ≠ p + front → ¬ free q → prev other q = prev memory q
  untouched : ∀ {original : Memory} {q : Nat}, Untouched original memory q → IsLump q →
    p + front + back ≤ q ∨ q < p ∧ q + size original q ≤ p →
    (∀ r, free r → r + 16 ≤ q ∨ q + size original q ≤ r) → Untouched original other q

theorem splitLump_spec {free : Nat → Prop} {back : Nat} (lists : FreeLists heap free)
    (lump : IsLump p) (backLump : IsLump (p + rounded)) (taken : ¬ free p)
    (new : ¬ free (p + rounded)) (size_eq : size heap.memory p = rounded + back)
    (multiple : back % 16 = 0) (nonzero : 0 < rounded) (positive : 0 < back) :
    ∃ split, splitLump heap p rounded = some split ∧
      FreeLists split (fun q => q = p + rounded ∨ free q) ∧
      SplitInto free heap.memory split.memory p rounded back := by
  have aligned := lump.aligned
  have above := lump.positive
  have alignedT := backLump.aligned
  have headerP : header p = p - 4 := rfl
  have headerT : header (p + rounded) = p + rounded - 4 := rfl
  have footerT : footer (p + rounded) back = p + rounded + back - 8 := by
    unfold footer gcHead
    omega
  let tagged := (heap.setMemory (footer (p + rounded) back) back).setMemory
    (header (p + rounded)) back
  have sizeT : size tagged.memory (p + rounded) = back := by
    rw [size, GcHeap.setMemory_memory, Memory.store_same]
    exact maskSize_of_aligned (by omega)
  have taggedOther : ∀ address, address ≠ header (p + rounded) →
      address ≠ footer (p + rounded) back → tagged.memory address = heap.memory address := by
    intro address notHeader notFooter
    rw [GcHeap.setMemory_memory, Memory.store_other _ _ notHeader, GcHeap.setMemory_memory,
      Memory.store_other _ _ notFooter]
  have taggedLists : FreeLists tagged free :=
    (lists.setFooter back (by omega)).setHeader back backLump new
  obtain ⟨inserted, run, insertedLists, relinked⟩ :=
    insertFreelump_spec taggedLists backLump new
  rw [sizeT] at run
  have links := insertFreelump_linksOnly taggedLists (sizeClass_lt _) run
  have insertedP : inserted.memory (header p) = heap.memory (header p) := by
    rw [relinked.sameTags _ (.inr (by omega))]
    exact taggedOther _ (by omega) (by omega)
  refine ⟨inserted.setMemory (header p) (rounded ||| flagBits (inserted.memory (header p))),
    ?_, ?_, ?_, ?_, ?_, ?_, ?_, ?_⟩
  · have back_eq : size heap.memory p - rounded = back := by omega
    rw [splitLump, if_pos (by omega), back_eq]
    change (insertFreelump tagged (p + rounded) (sizeClass back)).bind _ = _
    rw [run]
    rfl
  · apply insertedLists.setHeader _ lump
    rintro (same | isFree)
    · omega
    · exact taken isFree
  · rw [GcHeap.setMemory_memory, Memory.store_same, insertedP]
  · rw [GcHeap.setMemory_memory, Memory.store_other _ _ (by omega),
      relinked.sameTags _ (.inr (by omega)), GcHeap.setMemory_memory, Memory.store_same]
  · rw [GcHeap.setMemory_memory, Memory.store_other _ _ (by omega),
      relinked.sameTags _ (.inl (by omega)), GcHeap.setMemory_memory,
      Memory.store_other _ _ (by omega), GcHeap.setMemory_memory, Memory.store_same]
  · intro address isTag notP notT notFooter
    rw [GcHeap.setMemory_memory, Memory.store_other _ _ notP, relinked.sameTags _ isTag]
    exact taggedOther _ notT notFooter
  · intro q alignedQ positiveQ notT notFree
    rw [GcHeap.setMemory_memory, prev_setTag (.inr (by omega)) alignedQ,
      relinked.samePrev q alignedQ positiveQ (by rintro (same | isFree) <;> contradiction)]
    exact taggedOther _ (by omega) (by omega)
  · intro original q kept lumpQ beside away
    have positiveQ := lumpQ.positive
    have alignedQ := lumpQ.aligned
    have headerQ : header q = q - 4 := rfl
    have keepsTags : Untouched original tagged.memory q :=
      (kept.store _ (by omega) (by omega)).store _ (by omega) (by omega)
    have keepsLinks : Untouched original inserted.memory q := by
      refine keepsTags.relink lumpQ links relinked.sameTags ?_
      rintro r (rfl | isFree)
      · omega
      · exact away r isFree
    apply keepsLinks.store
    · omega
    · omega

section

variable (sound : Sound ⟨heap, regions, allocated⟩ layout)
  (isFree : IsFree regions layout allocated p)

include sound isFree

theorem Sound.cut_free :
    ∃ region ∈ regions, ∃ left right exit, layout region = left ++ [p] ++ right ∧
      Segment heap.memory allocated true region.first left true p ∧
      Tagged heap.memory allocated true p ∧
      Segment heap.memory allocated false (p + size heap.memory p) right exit
        region.last := by
  obtain ⟨⟨region, inRegions, member⟩, notHeld⟩ := isFree
  obtain ⟨exit, tagged⟩ := (sound.regions region inRegions).tagged
  obtain ⟨left, right, cut⟩ := List.append_of_mem member
  dsimp only at tagged
  rw [cut] at tagged
  obtain ⟨entry, start, before, rfl, tags, after⟩ := Segment.append_iff.mp tagged
  obtain ⟨rfl, _⟩ := tags.free notHeld
  rw [decide_eq_false notHeld] at after
  exact ⟨region, inRegions, left, right, exit, by simp [cut], before, tags, after⟩

/-- A free lump becomes allocated as a whole. -/
theorem Sound.takeWhole (lists : FreeLists heap' fun q => IsFree regions layout allocated q ∧ q ≠ p)
    (relinked : Relinked (IsFree regions layout allocated) heap.memory heap'.memory)
    (links : LinksOnly (IsFree regions layout allocated) heap.memory heap'.memory) :
    ∃ layout', Sound ⟨markUsed heap' p, regions, p :: allocated⟩ layout' ∧
      size (markUsed heap' p).memory p = size heap.memory p ∧
      ∀ q ∈ allocated, Untouched heap.memory (markUsed heap' p).memory q := by
  obtain ⟨region, inRegions, left, right, exit, cut, before, tags, after⟩ :=
    sound.cut_free isFree
  have lump := sound.isLump isFree.1
  have aligned := lump.aligned
  have positive := lump.positive
  have rounded := tags.rounded
  have sizePositive := tags.positive
  have old : Segment heap.memory allocated true p [p] false (p + size heap.memory p) :=
    ⟨rfl, tags, (decide_eq_false isFree.2).symm, rfl⟩
  have stop_eq : nextLump heap'.memory p = p + size heap.memory p := by
    rw [nextLump, relinked.sameTags.size_eq lump]
  have same_mask : maskSize (setFlag (heap'.memory (header (nextLump heap'.memory p)))
      .prev) = maskSize (heap'.memory (header (nextLump heap'.memory p))) :=
    maskSize_setFlag _ _
  have sizes : ∀ q, q % 16 = 0 → 0 < q →
      size (markUsed heap' p).memory q = size heap.memory q := by
    intro q alignedQ positiveQ
    rw [markUsed, GcHeap.setMemory_memory, size_reflag same_mask]
    exact size_congr (relinked.sameTags.header_eq alignedQ positiveQ)
  have isTag : header (nextLump heap'.memory p) % 16 = 12 := by
    rw [stop_eq]
    unfold header gcHead
    omega
  have used : prevInUse (markUsed heap' p).memory (p + size heap.memory p) = true := by
    rw [prevInUse, markUsed, GcHeap.setMemory_memory, stop_eq, Memory.store_same]
    simp
  refine ⟨_, sound.edit [p] true inRegions cut before old after
    ?_ ?_ ?_ ?_ ?_ ?_ ?_ ?_ ?_, sizes p aligned positive, ?_⟩
  · refine ⟨rfl, ⟨?_, ?_, ?_, ?_⟩, ?_, ?_⟩
    · rw [sizes p aligned positive]
      exact sizePositive
    · rw [sizes p aligned positive]
      exact rounded
    · rw [nextLump, sizes p aligned positive, used]
      simp
    · exact fun notHeld => absurd List.mem_cons_self notHeld
    · simp
    · rw [nextLump, sizes p aligned positive]
  · apply (TagsOutside.of_sameTags relinked.sameTags _ _).trans
    apply TagsOutside.store <;> rw [stop_eq] <;> unfold header gcHead <;> omega
  · apply prevInUse_congr
    rw [markUsed, GcHeap.setMemory_memory, stop_eq, Memory.store_other]
    · exact relinked.sameTags.header_eq aligned positive
    · unfold header gcHead
      omega
  · exact sizes _ (by omega) (by omega)
  · intro other inOther
    rw [markUsed, GcHeap.setMemory_memory,
      prev_setTag (.inr isTag) (sound.regions other inOther).last_aligned]
    exact sound.sameEnding relinked (fun q free => sound.last_not_lump inOther free.1) inOther
  · intro q notOld _
    simp only [List.mem_cons, List.not_mem_nil, or_false] at notOld ⊢
    tauto
  · exact fun q member _ => member
  · exact .inr (.inl rfl)
  · apply FreeLists.ext (lists.reflag _ _ same_mask)
    · intro q
      simp only [List.mem_cons, List.not_mem_nil, or_false]
      tauto
    · rw [stop_eq]
      omega
    · rw [stop_eq]
      omega
  · intro q held
    have beside := sound.free_away held isFree
    apply (sound.relink_untouched held links relinked.sameTags).reflag same_mask
        (fun _ => mark_setFlag_prev _) <;>
      rw [stop_eq] <;> omega

/-- The front part of a free lump becomes allocated. -/
theorem Sound.takeFront (lists : FreeLists heap' fun q => IsFree regions layout allocated q ∧ q ≠ p)
    (relinked : Relinked (IsFree regions layout allocated) heap.memory heap'.memory)
    (links : LinksOnly (IsFree regions layout allocated) heap.memory heap'.memory)
    (multiple : rounded % 16 = 0) (nonzero : 0 < rounded)
    (smaller : rounded < size heap.memory p) :
    ∃ split layout', splitLump heap' p rounded = some split ∧
      Sound ⟨markUsed split p, regions, p :: allocated⟩ layout' ∧
      size (markUsed split p).memory p = rounded ∧
      ∀ q ∈ allocated, Untouched heap.memory (markUsed split p).memory q := by
  obtain ⟨region, inRegions, left, right, exit, cut, before, tags, after⟩ :=
    sound.cut_free isFree
  have lump := sound.isLump isFree.1
  have aligned := lump.aligned
  have positive := lump.positive
  have roundedSize := tags.rounded
  have old : Segment heap.memory allocated true p [p] false (p + size heap.memory p) :=
    ⟨rfl, tags, (decide_eq_false isFree.2).symm, rfl⟩
  have sizeP := relinked.sameTags.size_eq lump
  have inRegion : p ∈ layout region := by simp [cut]
  have bounds := (sound.regions region inRegions).bounds inRegion
  have small := (sound.regions region inRegions).small
  dsimp only at bounds
  -- the rest of the lump
  let t := p + rounded
  let s := size heap.memory p - rounded
  have tLump : IsLump t := ⟨by omega, by omega, by omega⟩
  have tNew : ¬ HasLump regions layout t := by
    intro isLump
    have apart := sound.disjoint isFree.1 isLump (by omega)
    have := tLump.positive
    obtain ⟨other, inOther, member⟩ := isLump
    have := (sound.regions other inOther).bounds member
    dsimp only at this
    omega
  have tNotHeld : t ∉ p :: allocated := by
    intro member
    rcases List.mem_cons.mp member with same | held
    · omega
    · exact tNew (sound.held t held)
  have headerP : header p = p - 4 := rfl
  have headerT : header t = p + rounded - 4 := rfl
  have headerStop : header (p + size heap.memory p) = p + size heap.memory p - 4 := rfl
  have footerT : footer t s = p + size heap.memory p - 8 := by
    unfold footer gcHead
    omega
  obtain ⟨split, run, splitLists, parts⟩ : ∃ split, splitLump heap' p rounded = some split ∧
      FreeLists split (fun q => q = t ∨ IsFree regions layout allocated q ∧ q ≠ p) ∧
      SplitInto _ heap'.memory split.memory p rounded s :=
    splitLump_spec lists lump tLump (fun free => free.2 rfl) (fun free => tNew free.1.1)
      (by omega) (by omega) nonzero (by omega)
  have next_eq : nextLump split.memory p = t := by
    rw [nextLump, size, parts.frontHeader, maskSize_or_flagBits _ (by omega)]
  have marked_eq : (markUsed split p).memory =
      split.memory.store (header t) (setFlag s .prev) := by
    rw [markUsed, GcHeap.setMemory_memory, next_eq, parts.backHeader]
  -- the words written, as the final memory holds them
  have finalTag : ∀ address, address % 16 = 8 ∨ address % 16 = 12 →
      address ≠ header p → address ≠ header t → address ≠ footer t s →
      (markUsed split p).memory address = heap.memory address := by
    intro address isTag notP notT notFooter
    rw [marked_eq, Memory.store_other _ _ notT, parts.sameTags _ isTag notP notT notFooter,
      relinked.sameTags _ isTag]
  have finalP : (markUsed split p).memory (header p) =
      rounded ||| flagBits (heap.memory (header p)) := by
    rw [marked_eq, Memory.store_other _ _ (by omega), parts.frontHeader,
      relinked.sameTags.header_eq aligned positive]
  have finalT : (markUsed split p).memory (header t) = setFlag s .prev := by
    rw [marked_eq, Memory.store_same]
  have finalFooter : (markUsed split p).memory (footer t s) = s := by
    rw [marked_eq, Memory.store_other _ _ (by omega), parts.backFooter]
  have finalStop : (markUsed split p).memory (header (p + size heap.memory p)) =
      heap.memory (header (p + size heap.memory p)) :=
    finalTag _ (.inr (by omega)) (by omega) (by omega) (by omega)
  have finalSizeP : size (markUsed split p).memory p = rounded := by
    rw [size, finalP, maskSize_or_flagBits _ (by omega)]
  have finalSizeT : size (markUsed split p).memory t = s := by
    rw [size, finalT, maskSize_setFlag]
    exact maskSize_of_aligned (by omega)
  refine ⟨split, _, run, sound.edit [p, t] false inRegions cut before old after
    ?_ ?_ ?_ ?_ ?_ ?_ ?_ ?_ ?_, finalSizeP, ?_⟩
  · refine ⟨rfl, ⟨?_, ?_, ?_, ?_⟩, ?_, ⟨?_, ?_, ?_, ?_⟩, ?_, ?_⟩
    · rw [finalSizeP]
      exact nonzero
    · rw [finalSizeP]
      exact multiple
    · rw [nextLump, finalSizeP, prevInUse]
      change hasFlag ((markUsed split p).memory (header t)) .prev = _
      rw [finalT]
      simp
    · exact fun notHeld => absurd List.mem_cons_self notHeld
    · rw [nextLump, finalSizeP]
    · rw [finalSizeT]
      omega
    · rw [finalSizeT]
      omega
    · rw [nextLump, finalSizeT, decide_eq_false tNotHeld,
        show t + s = p + size heap.memory p by omega, prevInUse_congr finalStop]
      have flag := tags.flag
      rwa [decide_eq_false isFree.2] at flag
    · intro _
      refine ⟨by simp, ?_⟩
      rw [finalSizeT]
      exact finalFooter
    · exact (decide_eq_false tNotHeld).symm
    · rw [nextLump, finalSizeT]
      omega
  · intro address isTag outside
    exact finalTag address isTag (by omega) (by omega) (by omega)
  · rw [prevInUse, finalP, hasFlag_or_flagBits _ _ (by omega), prevInUse]
  · exact size_congr finalStop
  · intro other inOther
    have otherOk := sound.regions other inOther
    have alignedLast := otherOk.last_aligned
    have lastAway := fun q isLump => sound.last_not_lump (p := q) inOther isLump
    have lastOutside := sound.last_outside inOther isFree.1
    have room := otherOk.room
    have last_eq : other.last = other.stop - 32 := rfl
    rw [marked_eq, prev_setTag (.inr (by omega)) alignedLast,
      parts.samePrev _ alignedLast (by omega) (by omega) fun free => lastAway _ free.1.1 rfl]
    exact sound.sameEnding relinked (fun q free => sound.last_not_lump inOther free.1) inOther
  · intro q notOld notNew
    simp only [List.mem_cons, List.not_mem_nil, or_false, not_or] at notOld notNew ⊢
    tauto
  · intro q member _
    simp only [List.mem_singleton] at member
    simp [member]
  · exact .inl rfl
  · apply FreeLists.ext (splitLists.reflag _ _ (maskSize_setFlag _ _))
    · intro q
      simp only [List.mem_cons, List.not_mem_nil, or_false]
      constructor
      · rintro (⟨free, different⟩ | ⟨rfl | rfl, notHeld⟩)
        · exact .inr ⟨free, different⟩
        · simp at notHeld
        · exact .inl rfl
      · rintro (rfl | ⟨free, different⟩)
        · exact .inr ⟨.inr rfl, by simpa using tNotHeld⟩
        · exact .inl ⟨free, different⟩
    · rw [next_eq]
      exact tLump.aligned
    · rw [next_eq]
      exact tLump.positive
  · intro q held
    have beside := sound.free_away held isFree
    have sizeQ := sound.size_pos held
    have keeps : Untouched heap.memory split.memory q := by
      refine parts.untouched (sound.relink_untouched held links relinked.sameTags)
        (sound.isLump (sound.held q held)) (by omega) ?_
      intro r free
      have := sound.free_away held free.1
      omega
    rw [markUsed, next_eq]
    exact keeps.reflag (maskSize_setFlag _ _) (fun _ => mark_setFlag_prev _)
      tLump.positive (by omega)

end

theorem roundedSize_spec {request : Nat} (fits : request + 27 < wordSize) :
    roundedSize request % 16 = 0 ∧ request + 12 ≤ roundedSize request ∧
      roundedSize request < wordSize := by
  unfold roundedSize memAlign gcHead wordSize at *
  have padded : (request + 8) % 2 ^ 32 = request + 8 :=
    Nat.mod_eq_of_lt (by omega)
  have sum : (request + 8 + 4 + (2 * 8 - 1)) % 2 ^ 32 = request + 27 :=
    Nat.mod_eq_of_lt (by omega)
  simp only [padded, sum]
  omega

theorem memAllocate_sound (sound : Sound ⟨heap, regions, allocated⟩ layout)
    {request : Nat} (fits : request + 27 < wordSize) :
    ∃ final t, memAllocate heap request = some (final, t) ∧
      findFreelump heap (roundedSize request) (sizeClass (roundedSize request)) = some t ∧
      (t = 0 ∧ final = heap ∨ t ≠ 0 ∧ t ∉ allocated ∧
        size final.memory t = roundedSize request ∧
        (∀ q ∈ allocated, Untouched heap.memory final.memory q) ∧
        ∃ layout', Sound ⟨final, regions, t :: allocated⟩ layout') := by
  obtain ⟨multiple, atLeast, bounded⟩ := roundedSize_spec fits
  obtain ⟨p, found, fitting, _⟩ := findFreelump_spec sound.lists (roundedSize request)
  dsimp only at found fitting
  cases zero : decide (p = 0) with
  | true =>
      obtain rfl := of_decide_eq_true zero
      exact ⟨heap, 0, by simp [memAllocate, found], found, .inl ⟨rfl, rfl⟩⟩
  | false =>
      have nonzero := of_decide_eq_false zero
      obtain ⟨isFree, enough, _⟩ := fitting nonzero
      obtain ⟨removedLists, relinked⟩ := removeFreelump_spec sound.lists isFree
      have links := removeFreelump_linksOnly sound.lists isFree (sizeClass (size heap.memory p))
      dsimp only at removedLists relinked links
      have sizeP := relinked.sameTags.size_eq (sound.isLump isFree.1)
      obtain ⟨split, layout', run, splitSound, sizeSplit, keeps⟩ : ∃ split layout',
          splitLump (removeFreelump heap p (sizeClass (size heap.memory p))) p
              (roundedSize request) = some split ∧
            Sound ⟨markUsed split p, regions, p :: allocated⟩ layout' ∧
            size (markUsed split p).memory p = roundedSize request ∧
            ∀ q ∈ allocated, Untouched heap.memory (markUsed split p).memory q := by
        rcases Nat.lt_or_eq_of_le enough with smaller | same
        · exact sound.takeFront isFree removedLists relinked links multiple (by omega) smaller
        · obtain ⟨layout', wholeSound, sizeWhole, keeps⟩ :=
            sound.takeWhole isFree removedLists relinked links
          refine ⟨_, layout', ?_, wholeSound, by rw [sizeWhole, same], keeps⟩
          rw [splitLump, sizeP, if_neg (by omega)]
      have bytes : (roundedSize request + wordSize - gcHead) % wordSize =
          roundedSize request - 4 := by
        unfold gcHead wordSize at *
        omega
      have positive := (sound.isLump isFree.1).positive
      have cleared : ∀ address, address < p ∨ p + roundedSize request ≤ address + 4 →
          memsetZero (markUsed split p).memory p
            ((roundedSize request + wordSize - gcHead) % wordSize) address =
            (markUsed split p).memory address := by
        intro address outside
        unfold memsetZero
        rw [bytes, if_neg (by omega)]
      refine ⟨_, p, by simp [memAllocate, found, nonzero, run]; rfl, found,
        .inr ⟨nonzero, isFree.2, ?_, ?_, layout', ?_⟩⟩
      · refine (size_congr (cleared (header p) (.inl ?_))).trans sizeSplit
        unfold header gcHead
        omega
      · intro q held
        have apart := splitSound.disjoint (splitSound.held q (List.mem_cons_of_mem p held))
          (splitSound.held p List.mem_cons_self) (fun same => isFree.2 (same ▸ held))
        have bounds := splitSound.size_pos (List.mem_cons_of_mem p held)
        rw [sizeSplit] at apart
        have keepsHeader := cleared (header q) (by unfold header gcHead; omega)
        exact (keeps q held).trans ⟨size_congr keepsHeader, congrArg (hasFlag · .mark) keepsHeader,
          fun address low high => cleared address (by omega)⟩
      · apply splitSound.write List.mem_cons_self
        · intro address outside
          rw [sizeSplit] at outside
          exact cleared address outside
        · rfl

theorem Sound.memAllocate_ne_zero_iff (sound : Sound ⟨heap, regions, allocated⟩ layout)
    {request : Nat} (fits : request + 27 < wordSize) :
    ∃ final t, memAllocate heap request = some (final, t) ∧
      (t ≠ 0 ↔ ∃ q, IsFree regions layout allocated q ∧
        roundedSize request ≤ size heap.memory q) := by
  obtain ⟨final, t, run, found, _⟩ := memAllocate_sound sound fits
  obtain ⟨p, found', fitting, none⟩ := findFreelump_spec sound.lists (roundedSize request)
  dsimp only at found' fitting none
  obtain rfl : t = p := Option.some_inj.mp (found.symm.trans found')
  refine ⟨final, t, run, fun nonzero => ?_, ?_⟩
  · have best := fitting nonzero
    exact ⟨t, best.isHeld, best.enough⟩
  · rintro ⟨q, isFree, enough⟩ zero
    exact absurd enough (Nat.not_le_of_lt (none zero q isFree))

end

end LaTTe.Gc.Manual
