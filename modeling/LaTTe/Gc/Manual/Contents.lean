import LaTTe.Gc.Manual.Free

namespace LaTTe.Gc.Manual

open LaTTe.Data

/-! The bytes of a lump.  The leading byte of a word is its most significant one. -/

def byteAt (memory : Memory) (address : Nat) : Nat :=
  memory (address / 4 * 4) / 256 ^ (3 - address % 4) % 256

theorem leading_byte {kept : Nat} (word rest : Nat) {j : Nat} (less : j < 4 - kept)
    (bound : kept ≤ 3) :
    (word / 256 ^ kept * 256 ^ kept + rest % 256 ^ kept) / 256 ^ (3 - j) =
      word / 256 ^ (3 - j) := by
  have split : 256 ^ (3 - j) = 256 ^ kept * 256 ^ (3 - j - kept) := by
    rw [← Nat.pow_add]
    congr 1
    omega
  have positive : 0 < 256 ^ kept := Nat.pow_pos (by decide)
  rw [split, ← Nat.div_div_eq_div_mul, ← Nat.div_div_eq_div_mul, Nat.mul_comm,
    Nat.mul_add_div positive, Nat.div_eq_of_lt (Nat.mod_lt _ positive), Nat.add_zero]

theorem memcpy_byteAt {t p bytes k : Nat} (memory : Memory) (alignedT : t % 4 = 0)
    (alignedP : p % 4 = 0) (below : k < bytes) :
    byteAt (memcpy memory t p bytes) (t + k) = byteAt memory (p + k) := by
  have wordT : (t + k) / 4 * 4 = t + k / 4 * 4 := by omega
  have wordP : (p + k) / 4 * 4 = p + k / 4 * 4 := by omega
  have offsetT : (t + k) % 4 = k % 4 := by omega
  have offsetP : (p + k) % 4 = k % 4 := by omega
  have source : t + k / 4 * 4 - t + p = p + k / 4 * 4 := by omega
  rw [byteAt, byteAt, wordT, wordP, offsetT, offsetP, memcpy]
  cases whole : decide (k / 4 * 4 + 4 ≤ bytes) with
  | true =>
      have inside := of_decide_eq_true whole
      rw [if_pos (by omega), source]
  | false =>
      have last := of_decide_eq_false whole
      rw [if_neg (by omega), if_pos (by omega), source]
      exact congrArg (· % 256) (leading_byte _ _ (by omega) (by omega))

section

variable {heap : GcHeap} {regions : List Region} {allocated : List Nat}
  {layout : Region → List Nat} {memory other : Memory}

theorem Untouched.byteAt_eq {q k : Nat} (kept : Untouched memory other q)
    (aligned : q % 4 = 0) (rounded : Gc.size memory q % 4 = 0)
    (inside : k + gcHead < Gc.size memory q) :
    byteAt other (q + k) = byteAt memory (q + k) := by
  unfold gcHead at inside
  rw [byteAt, byteAt, kept.payload]
  · omega
  · omega

theorem Sound.rounded (sound : Sound ⟨heap, regions, allocated⟩ layout) {q : Nat}
    (held : q ∈ allocated) : q % 16 = 0 ∧ Gc.size heap.memory q % 16 = 0 := by
  obtain ⟨region, inRegions, member⟩ := sound.held q held
  have bounds := (sound.regions region inRegions).bounds member
  exact ⟨bounds.1, bounds.2.2.2.1⟩

theorem Sound.byteAt_eq (sound : Sound ⟨heap, regions, allocated⟩ layout) {q k : Nat}
    (held : q ∈ allocated) (kept : Untouched heap.memory other q)
    (inside : k + gcHead < Gc.size heap.memory q) :
    byteAt other (q + k) = byteAt heap.memory (q + k) := by
  obtain ⟨aligned, rounded⟩ := sound.rounded held
  exact kept.byteAt_eq (by omega) (by omega) inside

structure Moved (heap final : GcHeap) (allocated : List Nat) (p request t : Nat) : Prop where
  fresh : t ∉ allocated
  room : request + gcHead ≤ Gc.size final.memory t
  apart : t + Gc.size final.memory t ≤ p ∨ p + Gc.size heap.memory p ≤ t
  bytes : ∀ k < min (Gc.size heap.memory p - gcHead) request,
    byteAt final.memory (t + k) = byteAt heap.memory (p + k)
  others : ∀ q ∈ allocated, q ≠ p → Untouched heap.memory final.memory q

/-- `mem_resize` moves a block if there is a free lump that is large enough, and changes
nothing otherwise. -/
theorem memResize_spec (sound : Sound ⟨heap, regions, allocated⟩ layout)
    {p request : Nat} (isHeld : p ∈ allocated) (fits : request + 27 < wordSize) :
    ∃ final t, memResize heap p request = some (final, t) ∧
      (t ≠ 0 ↔ ∃ q, IsFree regions layout allocated q ∧
        roundedSize request ≤ Gc.size heap.memory q) ∧
      (t = 0 ∧ final = heap ∨ t ≠ 0 ∧ Moved heap final allocated p request t ∧
        ∃ layout', Sound ⟨final, regions, t :: allocated.filter (· ≠ p)⟩ layout') := by
  have nonzero : p ≠ 0 := by
    have := (sound.isLump (sound.held p isHeld)).positive
    omega
  obtain ⟨grown', t', run', found_iff⟩ := sound.memAllocate_ne_zero_iff fits
  obtain ⟨grown, t, run, _, ⟨rfl, rfl⟩ | ⟨found, new, size_eq, keeps, middle, grownSound⟩⟩ :=
    memAllocate_sound sound fits
  · obtain ⟨rfl, rfl⟩ := Prod.mk.inj (Option.some.inj (run.symm.trans run'))
    exact ⟨_, 0, by simp [memResize, nonzero, run], found_iff, .inl ⟨rfl, rfl⟩⟩
  · obtain ⟨rfl, rfl⟩ := Prod.mk.inj (Option.some.inj (run.symm.trans run'))
    obtain ⟨_, atLeast, _⟩ := roundedSize_spec fits
    have sizeP := (keeps p isHeld).size
    generalize bytes_eq : (if Gc.size grown.memory p - gcHead < request then
      Gc.size grown.memory p - gcHead else request) = bytes
    have bytes_min : bytes = min (Gc.size heap.memory p - gcHead) request := by
      rw [← bytes_eq, sizeP]
      split <;> omega
    have outside : ∀ address, address < t ∨ t + Gc.size grown.memory t ≤ address + 4 →
        memcpy grown.memory t p bytes address = grown.memory address := by
      intro address outside
      rw [size_eq] at outside
      unfold memcpy
      rw [if_neg (by omega), if_neg (by omega)]
    have copied : Sound ⟨{ grown with memory := memcpy grown.memory t p bytes },
        regions, t :: allocated⟩ middle :=
      grownSound.write List.mem_cons_self outside rfl
    obtain ⟨final, layout', freed, freedSound, frees⟩ :=
      memFree_sound copied (List.mem_cons_of_mem t isHeld)
    have different : t ≠ p := by
      rintro rfl
      exact new isHeld
    rw [List.filter_cons_of_pos (by simpa using different)] at freedSound
    have keptT := frees t List.mem_cons_self different
    have apart : ∀ q ∈ allocated, t + Gc.size grown.memory t ≤ q ∨
        q + Gc.size grown.memory q ≤ t := by
      intro q held
      apply grownSound.disjoint (grownSound.held t List.mem_cons_self)
        (grownSound.held q (List.mem_cons_of_mem t held))
      rintro rfl
      exact new held
    have keepsCopy : ∀ q ∈ allocated,
        Untouched grown.memory (memcpy grown.memory t p bytes) q := by
      intro q held
      have := apart q held
      have := grownSound.size_pos (List.mem_cons_of_mem t held)
      have keepsHeader : memcpy grown.memory t p bytes (header q) = grown.memory (header q) :=
        outside _ (by unfold header gcHead; omega)
      exact ⟨size_congr keepsHeader, congrArg (hasFlag · .mark) keepsHeader,
        fun address low high => outside address (by omega)⟩
    have headerT : memcpy grown.memory t p bytes (header t) = grown.memory (header t) := by
      have := (grownSound.isLump (grownSound.held t List.mem_cons_self)).positive
      apply outside
      unfold header gcHead
      omega
    have sizeT : Gc.size final.memory t = roundedSize request := by
      rw [keptT.size, size_congr headerT, size_eq]
    obtain ⟨alignedT, roundedT⟩ := grownSound.rounded (q := t) List.mem_cons_self
    obtain ⟨alignedP, roundedP⟩ := sound.rounded isHeld
    refine ⟨{ final with alloc := (final.alloc + request) % wordSize }, t, ?_, found_iff,
      .inr ⟨found, ⟨new, ?_, ?_, ?_, ?_⟩, layout', ?_⟩⟩
    · simp [memResize, nonzero, run, found, bytes_eq, freed]
    · change request + gcHead ≤ Gc.size final.memory t
      rw [sizeT]
      unfold gcHead
      omega
    · have beside := apart p isHeld
      rw [sizeP, size_eq, ← sizeT] at beside
      exact beside
    · intro k below
      rw [← bytes_min] at below
      have payload : k + gcHead < Gc.size heap.memory p := by
        unfold gcHead at *
        omega
      calc byteAt final.memory (t + k)
          = byteAt (memcpy grown.memory t p bytes) (t + k) := by
            apply copied.byteAt_eq List.mem_cons_self keptT
            change k + gcHead < Gc.size (memcpy grown.memory t p bytes) t
            rw [size_congr headerT, size_eq]
            unfold gcHead
            omega
        _ = byteAt grown.memory (p + k) :=
            memcpy_byteAt grown.memory (by omega) (by omega) below
        _ = byteAt heap.memory (p + k) := sound.byteAt_eq isHeld (keeps p isHeld) payload
    · intro q held differentQ
      exact ((keeps q held).trans (keepsCopy q held)).trans
        (frees q (List.mem_cons_of_mem t held) differentQ)
    · exact freedSound.write List.mem_cons_self (fun _ _ => rfl) rfl

theorem Moved.given_back {final : GcHeap} {added : List Region} {layout' : Region → List Nat}
    {p request t : Nat} (moved : Moved heap final allocated p request t)
    (sound : Sound ⟨heap, regions, allocated⟩ layout) (isHeld : p ∈ allocated)
    (finalSound : Sound ⟨final, added ++ regions, t :: allocated.filter (· ≠ p)⟩ layout') :
    ∃! r, IsFree (added ++ regions) layout' (t :: allocated.filter (· ≠ p)) r ∧
      r ≤ p ∧ p < r + Gc.size final.memory r := by
  obtain ⟨region, inRegions, member⟩ := sound.held p isHeld
  have bounds := (sound.regions region inRegions).bounds member
  have sizeP := sound.size_pos isHeld
  dsimp only at bounds
  have firstLe : region.first ≤ p := by
    unfold Region.first memAlign
    omega
  have ltLast : p < region.last := by
    unfold Region.last memAlign
    omega
  obtain ⟨r, lump, low, high⟩ :=
    finalSound.covers (List.mem_append_right added inRegions) firstLe ltLast
  have notHeld : r ∉ t :: allocated.filter (· ≠ p) := by
    intro held
    rcases List.mem_cons.mp held with rfl | kept
    · have apart := moved.apart
      omega
    · obtain ⟨heldR, different⟩ := List.mem_filter.mp kept
      have different : r ≠ p := of_decide_eq_true different
      have apart := sound.disjoint (sound.held r heldR) (sound.held p isHeld) different
      have sizeR := (moved.others r heldR different).size
      omega
  refine ⟨r, ⟨⟨lump, notHeld⟩, low, high⟩, ?_⟩
  rintro other ⟨isFree, lowOther, highOther⟩
  refine Classical.byContradiction fun different => ?_
  have apart := finalSound.disjoint isFree.1 lump different
  omega

/-- The new block may be flagged. -/
theorem Moved.mark {final : GcHeap} {regions' : List Region} {layout' : Region → List Nat}
    {p request t : Nat} (moved : Moved heap final allocated p request t)
    (finalSound : Sound ⟨final, regions', t :: allocated.filter (· ≠ p)⟩ layout') :
    Moved heap (final.setMemory (header t) (setFlag (final.memory (header t)) .mark))
      allocated p request t := by
  have same := maskSize_setFlag (final.memory (header t)) .mark
  have lumpT := finalSound.isLump (finalSound.held t List.mem_cons_self)
  have positive := lumpT.positive
  refine ⟨moved.fresh, ?_, ?_, ?_, ?_⟩
  · rw [GcHeap.setMemory_memory, size_reflag same]
    exact moved.room
  · rw [GcHeap.setMemory_memory, size_reflag same]
    exact moved.apart
  · intro k below
    have aligned := lumpT.aligned
    have away : (t + k) / 4 * 4 ≠ header t := by
      unfold header gcHead
      omega
    rw [← moved.bytes k below, byteAt, byteAt, GcHeap.setMemory_memory,
      Memory.store_other _ _ away]
  · intro q held different
    have kept := moved.others q held different
    have heldFinal : q ∈ t :: allocated.filter (· ≠ p) :=
      List.mem_cons_of_mem t (List.mem_filter.mpr ⟨held, decide_eq_true different⟩)
    have apart := finalSound.disjoint (finalSound.held q heldFinal)
      (finalSound.held t List.mem_cons_self) fun same => moved.fresh (same ▸ held)
    have size_eq := kept.size
    have away : header t ≠ header q := by
      have other : t ≠ q := fun same => moved.fresh (same ▸ held)
      have lumpQ := finalSound.isLump (finalSound.held q heldFinal)
      have alignedQ := lumpQ.aligned
      have positiveQ := lumpQ.positive
      have alignedT := lumpT.aligned
      unfold header gcHead
      omega
    exact kept.reflag same (fun equal => absurd equal away) positive (by omega)

theorem Moved.after {grown final : GcHeap} {p request t : Nat}
    (moved : Moved grown final allocated p request t)
    (sound : Sound ⟨heap, regions, allocated⟩ layout) (isHeld : p ∈ allocated)
    (keeps : ∀ q ∈ allocated, Untouched heap.memory grown.memory q) :
    Moved heap final allocated p request t := by
  have sizeP := (keeps p isHeld).size
  refine ⟨moved.fresh, moved.room, ?_, ?_, ?_⟩
  · rw [← sizeP]
    exact moved.apart
  · intro k below
    have inside : k + gcHead < Gc.size heap.memory p := by omega
    rw [moved.bytes k (by rwa [sizeP])]
    exact sound.byteAt_eq isHeld (keeps p isHeld) inside
  · exact fun q held different => (keeps q held).trans (moved.others q held different)

end

end LaTTe.Gc.Manual
