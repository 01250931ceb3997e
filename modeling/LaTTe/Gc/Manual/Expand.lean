import LaTTe.Gc.Manual.Free

namespace LaTTe.Gc.Manual

open LaTTe.Data

def newRegion (request start : Nat) : Region where
  start := start
  stop := start + regionSize request

theorem regionSize_spec {request : Nat}
    (fits : request + 6 * memAlign + (gcRegionSize - 1) < wordSize) :
    regionSize request % 16 = 0 ∧ request + 48 ≤ regionSize request ∧
      64 ≤ regionSize request ∧ regionSize request < wordSize := by
  unfold regionSize memAlign gcRegionSize wordSize at *
  have sum : (request + 6 * 8) % 2 ^ 32 = request + 48 := Nat.mod_eq_of_lt (by omega)
  have rounded : (request + 48 + (2 * 1024 * 1024 - 1)) % 2 ^ 32 =
      request + 48 + (2 * 1024 * 1024 - 1) := Nat.mod_eq_of_lt (by omega)
  simp only [sum, rounded]
  omega

section Fresh

variable {memory : Memory} {regions : List Region} {allocated : List Nat}
  {layout : Region → List Nat} {region : Region}

/-- A region that is one free lump, as the writes of `memExpand` leave it. -/
theorem RegionOk.single {bytes : Nat} (aligned : region.start % 16 = 0)
    (length : region.stop = region.start + bytes + 48) (rounded : bytes % 16 = 0)
    (positive : 0 < bytes) (small : region.stop ≤ wordSize) (notHeld : region.first ∉ allocated)
    (firstHeader : memory (header region.first) = setFlag bytes .prev)
    (firstFooter : memory (footer region.first bytes) = bytes)
    (lastHeader : memory (header region.last) = memAlign)
    (endHeader : memory (header (region.last + memAlign)) = Flag.prev.bit) :
    RegionOk memory allocated region [region.first] := by
  have size_eq : size memory region.first = bytes := by
    rw [size, firstHeader, maskSize_setFlag]
    exact maskSize_of_aligned (by omega)
  have next_eq : nextLump memory region.first = region.last := by
    rw [nextLump, size_eq]
    unfold Region.first Region.last memAlign
    omega
  refine ⟨aligned, by omega, small, ?_, ⟨false, ?_⟩, ?_, ?_⟩
  · rw [prevInUse, firstHeader]
    simp
  · refine ⟨rfl, ⟨?_, ?_, ?_, ?_⟩, (decide_eq_false notHeld).symm, next_eq.symm⟩
    · rw [size_eq]
      omega
    · rw [size_eq]
      exact rounded
    · rw [next_eq, prevInUse, lastHeader, decide_eq_false notHeld]
      rfl
    · intro _
      rw [size_eq]
      exact ⟨rfl, firstFooter⟩
  · rw [size, lastHeader]
    rfl
  · rw [nextLump, size, lastHeader, maskSize_of_aligned rfl, prevInUse, endHeader]
    rfl

theorem hasLump_added (new : region ∉ regions) (p q : Nat) :
    HasLump (region :: regions) (fun other => if other = region then [p] else layout other) q ↔
      q = p ∨ HasLump regions layout q := by
  unfold HasLump
  simp only [List.exists_mem_cons_iff, if_true, List.mem_singleton]
  refine or_congr Iff.rfl (exists_congr fun other => and_congr_right fun inOther => ?_)
  rw [if_neg (ne_of_mem_of_not_mem inOther new)]

theorem isFree_added (new : region ∉ regions) {p : Nat} (notHeld : p ∉ allocated) (q : Nat) :
    IsFree (region :: regions) (fun other => if other = region then [p] else layout other)
        allocated q ↔ q = p ∨ IsFree regions layout allocated q := by
  unfold IsFree
  rw [hasLump_added new]
  constructor
  · rintro ⟨rfl | isLump, free⟩
    · exact .inl rfl
    · exact .inr ⟨isLump, free⟩
  · rintro (rfl | ⟨isLump, free⟩)
    · exact ⟨.inl rfl, notHeld⟩
    · exact ⟨.inr isLump, free⟩

variable {heap : GcHeap} (sound : Sound ⟨heap, regions, allocated⟩ layout)
  (fresh : ∀ other ∈ regions, region.Apart other)

include sound fresh

theorem Sound.outside {q : Nat} (hasLump : HasLump regions layout q) :
    (q + 16 ≤ region.start ∧ q + size heap.memory q ≤ region.start) ∨ region.stop + 16 ≤ q := by
  obtain ⟨other, inOther, member⟩ := hasLump
  have bounds := (sound.regions other inOther).bounds member
  have apart := fresh other inOther
  unfold Region.Apart at apart
  dsimp only at bounds
  omega

theorem Sound.apart_added :
    ∀ one ∈ region :: regions, ∀ other ∈ region :: regions, one ≠ other → one.Apart other := by
  intro one inOne other inOther different
  rcases List.mem_cons.mp inOne with rfl | oneOld
  · rcases List.mem_cons.mp inOther with rfl | otherOld
    · exact absurd rfl different
    · exact fresh other otherOld
  · rcases List.mem_cons.mp inOther with rfl | otherOld
    · exact (fresh one oneOld).symm
    · exact sound.apart one oneOld other otherOld different

end Fresh

section

variable {heap : GcHeap} {regions : List Region} {allocated : List Nat}
  {layout : Region → List Nat} {request start : Nat}

theorem memExpand_sound (sound : Sound ⟨heap, regions, allocated⟩ layout)
    (fits : request + 6 * memAlign + (gcRegionSize - 1) < wordSize)
    (aligned : start % gcBlockSize = 0)
    (inRange : start + regionSize request ≤ wordSize)
    (fresh : ∀ other ∈ regions, (newRegion request start).Apart other) :
    ∃ final layout', memExpand heap request (some start) = some (final, 0) ∧
      Sound ⟨final, newRegion request start :: regions, allocated⟩ layout' ∧
      (∀ q, IsFree (newRegion request start :: regions) layout' allocated q ↔
        q = start + 16 ∨ IsFree regions layout allocated q) ∧
      size final.memory (start + 16) = regionSize request - 48 ∧
      (∀ q, IsFree regions layout allocated q → size final.memory q = size heap.memory q) ∧
      ∀ q ∈ allocated, Untouched heap.memory final.memory q := by
  obtain ⟨multiple, _, atLeast, below⟩ := regionSize_spec fits
  unfold gcBlockSize at aligned
  generalize rsize_eq : regionSize request = rsize at *
  have region_eq : newRegion request start = ⟨start, start + rsize⟩ := by
    rw [newRegion, rsize_eq]
  rw [region_eq] at fresh ⊢
  let p := start + 16
  let bytes := rsize - 48
  let last := start + rsize - 32
  have lump : IsLump p := ⟨by omega, by omega, by omega⟩
  have bytes_eq : (rsize + wordSize - 6 * memAlign) % wordSize = bytes := by
    unfold memAlign wordSize at *
    omega
  have headerP : header p = start + 12 := by
    unfold header gcHead
    omega
  have headerLast : header last = last - 4 := rfl
  have headerEnd : header (last + 8) = last + 4 := by
    unfold header gcHead
    omega
  have footerP : footer p bytes = last - 8 := by
    unfold footer gcHead
    omega
  have outside : ∀ q, HasLump regions layout q →
      (q + 16 ≤ start ∧ q + size heap.memory q ≤ start) ∨ start + rsize + 16 ≤ q :=
    fun q isLump => sound.outside fresh isLump
  have new : (⟨start, start + rsize⟩ : Region) ∉ regions := by
    intro member
    have := fresh _ member
    unfold Region.Apart at this
    dsimp only at this
    omega
  have notHeld : p ∉ allocated := fun held => by
    have := outside p (sound.held p held)
    omega
  let tagged := (heap.setMemory (header p) (setFlag bytes .prev)).setMemory
    (footer p bytes) bytes
  have taggedOther : ∀ address, address ≠ header p → address ≠ footer p bytes →
      tagged.memory address = heap.memory address := by
    intro address notHeader notFooter
    rw [GcHeap.setMemory_memory, Memory.store_other _ _ notFooter, GcHeap.setMemory_memory,
      Memory.store_other _ _ notHeader]
  have notFree : ¬ IsFree regions layout allocated p := by
    intro free
    have := outside p free.1
    omega
  have taggedLists : FreeLists tagged (IsFree regions layout allocated) :=
    (sound.lists.setHeader _ lump notFree).setFooter _ (by omega)
  have taggedHeader : tagged.memory (header p) = setFlag bytes .prev := by
    rw [GcHeap.setMemory_memory, Memory.store_other _ _ (by omega),
      GcHeap.setMemory_memory, Memory.store_same]
  have sizeTagged : size tagged.memory p = bytes := by
    rw [size, taggedHeader, maskSize_setFlag]
    exact maskSize_of_aligned (by omega)
  obtain ⟨inserted, run, insertedLists, relinked⟩ :=
    insertFreelump_spec taggedLists lump notFree
  rw [sizeTagged] at run
  have next_eq : nextLump inserted.memory p = last := by
    rw [nextLump, relinked.sameTags.size_eq lump, sizeTagged]
    omega
  let ended := inserted.setMemory (header last) memAlign
  have nextEnded : nextLump ended.memory last = last + 8 := by
    rw [nextLump, size, GcHeap.setMemory_memory, Memory.store_same]
    rfl
  let closed := ended.setMemory (last + 4) 4
  have closed_eq : ended.setMemory (header (nextLump ended.memory last))
      Flag.prev.bit = closed := by
    rw [nextEnded, headerEnd]
    rfl
  let final := { closed with size := (closed.size + rsize) % wordSize }
  -- after the lump is linked, only the two headers of the dummy are written
  have finalOther : ∀ address, address ≠ header last → address ≠ last + 4 →
      final.memory address = inserted.memory address := by
    intro address notLast notEnd
    change (ended.memory.store (last + 4) 4) address = _
    rw [Memory.store_other _ _ notEnd, GcHeap.setMemory_memory, Memory.store_other _ _ notLast]
  have finalTag : ∀ address, address % 16 = 8 ∨ address % 16 = 12 →
      address ≠ header last →
      final.memory address = tagged.memory address := fun address isTag notLast =>
    (finalOther address notLast (by omega)).trans (relinked.sameTags address isTag)
  have finalLast : final.memory (header last) = memAlign := by
    change (ended.memory.store (last + 4) 4) (header last) = _
    rw [Memory.store_other _ _ (by omega), GcHeap.setMemory_memory, Memory.store_same]
  have finalEnd : final.memory (header (last + 8)) = 4 := by
    rw [headerEnd]
    exact Memory.store_same _ _ _
  have finalHeader : final.memory (header p) = setFlag bytes .prev := by
    rw [finalTag _ (.inr (by omega)) (by omega), taggedHeader]
  have finalFooter : final.memory (footer p bytes) = bytes := by
    rw [finalTag _ (.inl (by omega)) (by omega), GcHeap.setMemory_memory,
      Memory.store_same]
  have away : ∀ q, q = p ∨ IsFree regions layout allocated q →
      IsLump q ∧ (q + 16 ≤ last ∨ last + 48 ≤ q) := by
    rintro q (rfl | free)
    · exact ⟨lump, by omega⟩
    · have := outside q free.1
      exact ⟨sound.isLump free.1, by omega⟩
  have sizes : ∀ q, q = p ∨ IsFree regions layout allocated q →
      size final.memory q = size tagged.memory q := by
    intro q touched
    obtain ⟨lumpQ, apart⟩ := away q touched
    have := lumpQ.aligned
    have := lumpQ.positive
    have headerQ : header q = q - 4 := rfl
    exact size_congr (finalTag _ (by omega) (by omega))
  refine ⟨final, fun other =>
    if other = ⟨start, start + rsize⟩ then [p] else layout other, ?_,
    ⟨?_, sound.apart_added fresh, ?_, ?_⟩, isFree_added new notHeld,
    (sizes p (.inl rfl)).trans sizeTagged, ?_, ?_⟩
  · have p_eq : start + 2 * memAlign = p := rfl
    have ended_eq : inserted.setMemory (header last) memAlign = ended := rfl
    simp only [memExpand, rsize_eq, bytes_eq, p_eq]
    change ((insertFreelump tagged p (sizeClass bytes)).bind _) = _
    rw [run, Option.bind_some, next_eq, ended_eq, closed_eq]
  · intro other inOther
    dsimp only
    rcases List.mem_cons.mp inOther with rfl | inOther
    · rw [if_pos rfl]
      exact .single (by dsimp only; omega) (by dsimp only; omega) (by omega) (by omega) inRange
        notHeld finalHeader finalFooter finalLast finalEnd
    · rw [if_neg (ne_of_mem_of_not_mem inOther new)]
      have regionOk := sound.regions other inOther
      have apart := fresh other inOther
      have room := regionOk.room
      unfold Region.Apart at apart
      dsimp only at apart
      apply regionOk.congr
      · intro address isTag low high
        exact (finalTag address isTag (by omega)).trans
          (taggedOther address (by omega) (by omega))
      · have alignedLast := regionOk.last_aligned
        have lastOther : other.last = other.stop - 32 := rfl
        calc prev final.memory other.last
            = prev inserted.memory other.last := finalOther _ (by omega) (by omega)
          _ = prev tagged.memory other.last := sound.sameEnding relinked ?_ inOther
          _ = prev heap.memory other.last := taggedOther _ (by omega) (by omega)
        rintro q (rfl | free)
        · omega
        · exact sound.last_not_lump inOther free.1
      · exact fun _ _ => Iff.rfl
  · exact fun q held => (hasLump_added new p q).mpr (.inr (sound.held q held))
  · have finalLists : FreeLists final
        fun q => q = p ∨ IsFree regions layout allocated q := by
      apply insertedLists.congr
      · rfl
      · intro q touched
        obtain ⟨lumpQ, apart⟩ := away q touched
        have := lumpQ.aligned
        exact finalOther q (by omega) (by omega)
      · intro q touched
        obtain ⟨lumpQ, apart⟩ := away q touched
        have := lumpQ.aligned
        exact finalOther (q + 4) (by omega) (by omega)
      · intro q touched
        rw [sizes q touched, relinked.sameTags.size_eq (away q touched).1]
    exact finalLists.ext (isFree_added new notHeld)
  · intro q free
    have lumpQ := sound.isLump free.1
    have apart := outside q free.1
    have := lumpQ.aligned
    have positive := lumpQ.positive
    have headerQ : header q = q - 4 := rfl
    rw [sizes q (.inr free)]
    exact size_congr (taggedOther _ (by omega) (by omega))
  · intro q held
    have lumpQ := sound.isLump (sound.held q held)
    have positiveQ := lumpQ.positive
    have sizeQ := sound.size_pos held
    have headerQ : header q = q - 4 := rfl
    have apart := outside q (sound.held q held)
    have keepsTags : Untouched heap.memory tagged.memory q := by
      apply ((Untouched.refl heap.memory q).store _ _ _).store
      all_goals omega
    have keepsLinks : Untouched heap.memory inserted.memory q := by
      refine keepsTags.relink lumpQ
        (insertFreelump_linksOnly taggedLists (sizeClass_lt _) run) relinked.sameTags ?_
      rintro r (rfl | free)
      · omega
      · have := sound.free_away held free
        omega
    have keepsDummy : Untouched heap.memory ended.memory q := by
      apply keepsLinks.store
      · omega
      · omega
    apply keepsDummy.store
    · omega
    · omega

end

end LaTTe.Gc.Manual
