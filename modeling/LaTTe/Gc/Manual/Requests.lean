import LaTTe.Gc.Manual.Run

namespace LaTTe.Gc.Manual

open LaTTe.Data

/-! What a request gets. -/

section

variable {request : Nat}

theorem Call.Fits.allocate {start : Option Nat} (fits : (Call.expand request start).Fits) :
    request + 27 < wordSize := by
  change request + 48 + 2097151 < wordSize at fits
  omega

theorem roundedSize_le_iff (fits : (Call.expand request none).Fits) :
    roundedSize request ≤ regionSize request - 48 ↔
      (request + 6 * memAlign) % gcRegionSize ≠ 0 ∧
        (request + 6 * memAlign) % gcRegionSize + memAlign + gcHead ≤ gcRegionSize := by
  unfold Call.Fits at fits
  unfold roundedSize regionSize memAlign gcHead gcRegionSize wordSize at *
  have padded : (request + 8) % 2 ^ 32 = request + 8 := Nat.mod_eq_of_lt (by omega)
  have sum : (request + 8 + 4 + (2 * 8 - 1)) % 2 ^ 32 = request + 27 :=
    Nat.mod_eq_of_lt (by omega)
  have sum' : (request + 6 * 8) % 2 ^ 32 = request + 48 := Nat.mod_eq_of_lt (by omega)
  have rounded : (request + 48 + (2 * 1024 * 1024 - 1)) % 2 ^ 32 =
      request + 48 + (2 * 1024 * 1024 - 1) := Nat.mod_eq_of_lt (by omega)
  simp only [padded, sum, sum', rounded]
  omega

end

/-- `mem_allocate` takes the smallest free lump that is large enough, and `NULL` only when
there is none. -/
theorem memAllocate_takes_best_fit (manager : Manager) (layout : Region → List Nat)
    (chain : Nat → List Nat) (represents : Represents manager layout chain) (request : Nat)
    (fits : (Call.allocate request).Fits) :
    ∃ p, findFreelump manager.heap (roundedSize request) (sizeClass (roundedSize request)) =
        some p ∧
      (p ≠ 0 → BestFit (IsFree manager.regions layout manager.allocated)
        (size manager.heap.memory) (roundedSize request) p) ∧
      (p = 0 → ∀ cls < sizeClasses, ∀ q ∈ chain cls,
        size manager.heap.memory q < roundedSize request) ∧
      request + memAlign + gcHead ≤ roundedSize request ∧
      (∀ final t, memAllocate manager.heap request = some (final, t) → t = p) ∧
      (Sound manager layout → ∃ final, memAllocate manager.heap request = some (final, p)) := by
  have lists : FreeLists manager.heap (IsFree manager.regions layout manager.allocated) :=
    ⟨chain, represents.listed, represents.onList⟩
  obtain ⟨p, found, fitting, none⟩ := findFreelump_spec lists (roundedSize request)
  refine ⟨p, found, fitting, ?_, (roundedSize_spec fits).2.1, ?_, ?_⟩
  · intro zero cls below q member
    exact none zero q ((represents.onList q).mpr ⟨cls, below, member⟩)
  · intro final t run
    simp only [memAllocate, found, Option.bind_eq_bind, Option.bind_some] at run
    split at run
    · obtain ⟨split, _, run⟩ := Option.bind_eq_some_iff.mp run
      exact (congrArg Prod.snd (Option.some_inj.mp run)).symm
    · rename_i zero
      exact (congrArg Prod.snd (Option.some_inj.mp run)).symm.trans
        (Decidable.not_not.mp zero).symm
  · intro sound
    obtain ⟨final, t, run, found', _⟩ := memAllocate_sound sound fits
    obtain rfl : t = p := Option.some_inj.mp (found'.symm.trans found)
    exact ⟨final, run⟩

theorem memAllocate_takes_best_fit_hole : ∃ manager layout,
    run [.expand 100 (some 4096), .allocate 40, .allocate 20, .free 4112]
        ⟨memInit fun _ => 0, [], []⟩ = some manager ∧
      BestFit (IsFree manager.regions layout manager.allocated) (size manager.heap.memory)
        (roundedSize 40) 4112 := by
  have ran : ((run [.expand 100 (some 4096), .allocate 40, .allocate 20, .free 4112]
      ⟨memInit fun _ => 0, [], []⟩).bind fun manager =>
        findFreelump manager.heap (roundedSize 40) (sizeClass (roundedSize 40))) =
      some 4112 := by decide +kernel
  obtain ⟨manager, run_eq, hole⟩ := Option.bind_eq_some_iff.mp ran
  obtain ⟨layout, sound⟩ := reachable_sound (reachable_run (.start ⟨_, rfl⟩) (by decide) run_eq)
  obtain ⟨layout, chain, represents⟩ := sound.represents
  obtain ⟨p, found, fitting, _⟩ :=
    memAllocate_takes_best_fit manager layout chain represents 40 (by decide)
  rw [hole] at found
  cases found
  exact ⟨manager, layout, run_eq, fitting (by decide)⟩

/-- After a successful `mem_expand` the same request gets a lump if there was one already
or the last unit of the region is not almost full. -/
theorem memExpand_is_enough_iff (manager : Manager) (layout : Region → List Nat)
    (sound : Sound manager layout) (request : Nat) (start : Option Nat)
    (legal : (Call.expand request start).Legal manager)
    (fits : (Call.expand request start).Fits) :
    ∃ heap code, memExpand manager.heap request start = some (heap, code) ∧
      (0 ≤ code → ∃ final t, memAllocate heap request = some (final, t) ∧
        (t ≠ 0 ↔
          (∃ q, IsFree manager.regions layout manager.allocated q ∧
            roundedSize request ≤ size manager.heap.memory q) ∨
          (request + 6 * memAlign) % gcRegionSize ≠ 0 ∧
            (request + 6 * memAlign) % gcRegionSize + memAlign + gcHead ≤ gcRegionSize)) := by
  obtain ⟨heap, regions, allocated⟩ := manager
  cases start with
  | none => exact ⟨heap, -1, rfl, fun success => absurd success (by decide)⟩
  | some start =>
      obtain ⟨aligned, inRange, fresh⟩ := legal
      obtain ⟨grown, layout', run, grownSound, isFree_iff, newSize, sameSize, _⟩ :=
        memExpand_sound sound fits aligned inRange fresh
      obtain ⟨final, t, run', returned⟩ := grownSound.memAllocate_ne_zero_iff fits.allocate
      refine ⟨grown, 0, run, fun _ => ⟨final, t, run', returned.trans ?_⟩⟩
      rw [← roundedSize_le_iff fits, ← newSize]
      constructor
      · rintro ⟨q, isFree, enough⟩
        rcases (isFree_iff q).mp isFree with rfl | old
        · exact .inr enough
        · exact .inl ⟨q, old, sameSize q old ▸ enough⟩
      · rintro (⟨q, old, enough⟩ | enough)
        · exact ⟨q, (isFree_iff q).mpr (.inr old), (sameSize q old).symm ▸ enough⟩
        · exact ⟨_, (isFree_iff _).mpr (.inl rfl), enough⟩

theorem memExpand_is_enough_iff_small : ∃ heap final t,
    memExpand (memInit fun _ => 0) 100 (some 4096) = some (heap, 0) ∧
      memAllocate heap 100 = some (final, t) ∧ t ≠ 0 := by
  obtain ⟨heap, code, run, gets⟩ := memExpand_is_enough_iff ⟨memInit fun _ => 0, [], []⟩
    (fun _ => []) (empty_sound _) 100 (some 4096) (by decide) (by decide)
  have success : (memExpand (memInit fun _ => 0) 100 (some 4096)).map Prod.snd = some 0 := by
    decide +kernel
  dsimp only at run
  rw [run] at success
  obtain rfl : code = 0 := Option.some_inj.mp success
  obtain ⟨final, t, run', returned⟩ := gets (by decide)
  exact ⟨heap, final, t, run, run', returned.mpr (.inr (by decide))⟩

/-- A request that fills its last unit exactly leaves no room for padding and header. -/
theorem memExpand_is_not_enough :
    ¬ ∀ (manager : Manager) (layout : Region → List Nat), Sound manager layout →
      ∀ (request : Nat) (start : Option Nat),
        (Call.expand request start).Legal manager → (Call.expand request start).Fits →
        ∀ heap, memExpand manager.heap request start = some (heap, 0) →
          ∃ final t, memAllocate heap request = some (final, t) ∧ t ≠ 0 := by
  intro always
  have ran : ((memExpand (memInit fun _ => 0) 2097104 (some 4096)).bind fun grown =>
      (memAllocate grown.1 2097104).map fun result => (grown.2, result.2)) = some (0, 0) := by
    decide +kernel
  obtain ⟨⟨heap, code⟩, expanded, result⟩ := Option.bind_eq_some_iff.mp ran
  obtain ⟨⟨final, t⟩, allocated, same⟩ := Option.map_eq_some_iff.mp result
  cases same
  obtain ⟨final', t, allocated', nonzero⟩ := always ⟨memInit fun _ => 0, [], []⟩
    (fun _ => []) (empty_sound _) 2097104 (some 4096) (by decide) (by decide) heap expanded
  rw [allocated] at allocated'
  cases allocated'
  exact nonzero rfl

theorem Sound.gap {manager : Manager} {layout : Region → List Nat} (sound : Sound manager layout)
    {region : Region} (inRegions : region ∈ manager.regions) {low high : Nat}
    (above : region.first ≤ low) (positive : low < high) (below : high ≤ region.last)
    (unheld : ∀ q ∈ manager.allocated, q + size manager.heap.memory q ≤ low ∨ high ≤ q) :
    ∃ p, IsFree manager.regions layout manager.allocated p ∧ p ≤ low ∧
      high ≤ p + size manager.heap.memory p := by
  obtain ⟨exit, segment⟩ := (sound.regions region inRegions).tagged
  obtain ⟨p, member, low_in, in_low⟩ := segment.tiles.covers above (by omega)
  have isFree : p ∉ manager.allocated := by
    intro held
    have := unheld p held
    omega
  refine ⟨p, ⟨⟨region, inRegions, member⟩, isFree⟩, low_in, ?_⟩
  by_contra short
  -- otherwise the next lump would be free as well
  have behind : region.first ≤ p + size manager.heap.memory p := by omega
  have inside : p + size manager.heap.memory p < region.last := by omega
  obtain ⟨next, memberNext, next_in, in_next⟩ := segment.tiles.covers behind inside
  have different : p ≠ next := by
    rintro rfl
    omega
  have starts : nextLump manager.heap.memory p = next := by
    have apart := sound.disjoint (p := p) (q := next) ⟨region, inRegions, member⟩
      ⟨region, inRegions, memberNext⟩ different
    unfold nextLump
    omega
  rcases segment.coalesced member (starts ▸ memberNext) with held | held
  · exact isFree held
  · rw [starts] at held
    have := unheld next held
    unfold nextLump at starts
    omega

/-- The manager serves a request whenever its regions have that much memory in one piece
that no caller holds. -/
theorem memAllocate_serves_iff_gap (manager : Manager)
    (reached : Reachable Empty (Step Call.Fits) manager) (request : Nat)
    (fits : (Call.allocate request).Fits) :
    ∃ heap p, memAllocate manager.heap request = some (heap, p) ∧
      (p ≠ 0 ↔ ∃ region ∈ manager.regions, ∃ low, region.first ≤ low ∧
        low + roundedSize request ≤ region.last ∧
        ∀ q ∈ manager.allocated,
          q + size manager.heap.memory q ≤ low ∨ low + roundedSize request ≤ q) := by
  obtain ⟨layout, sound⟩ := reachable_sound reached
  obtain ⟨heap, p, run, served_iff⟩ := Sound.memAllocate_ne_zero_iff sound fits
  refine ⟨heap, p, run, served_iff.trans ?_⟩
  constructor
  · rintro ⟨q, isFree, enough⟩
    obtain ⟨region, inRegions, member⟩ := isFree.1
    obtain ⟨exit, segment⟩ := (sound.regions region inRegions).tagged
    have bounds := segment.tiles.mem_bounds member
    refine ⟨region, inRegions, q, bounds.1, by omega, fun held isHeld => ?_⟩
    have apart := sound.disjoint (sound.held held isHeld) isFree.1 fun same =>
      isFree.2 (same ▸ isHeld)
    omega
  · rintro ⟨region, inRegions, low, above, below, unheld⟩
    have positive := (roundedSize_spec fits).2.1
    have some_bytes : low < low + roundedSize request := by omega
    obtain ⟨q, isFree, begins, ends⟩ := sound.gap inRegions above some_bytes below unheld
    exact ⟨q, isFree, by omega⟩

theorem memAllocate_serves_iff_gap_behind : ∃ manager heap p,
    run [.expand 100 (some 4096), .allocate 40, .allocate 20, .free 4112]
        ⟨memInit fun _ => 0, [], []⟩ = some manager ∧
      memAllocate manager.heap 500 = some (heap, p) ∧ p ≠ 0 := by
  have ran : ((run [.expand 100 (some 4096), .allocate 40, .allocate 20, .free 4112]
      ⟨memInit fun _ => 0, [], []⟩).map fun manager => (manager.regions, manager.allocated,
        size manager.heap.memory 4176)) = some ([⟨4096, 2101248⟩], [4176], 32) := by decide +kernel
  obtain ⟨manager, run_eq, facts⟩ := Option.map_eq_some_iff.mp ran
  simp only [Prod.mk.injEq] at facts
  obtain ⟨regions, allocated, size_eq⟩ := facts
  obtain ⟨heap, p, allocates, served_iff⟩ := memAllocate_serves_iff_gap manager
    (reachable_run (.start ⟨_, rfl⟩) (by decide) run_eq) 500 (by decide)
  refine ⟨manager, heap, p, run_eq, allocates, served_iff.mpr ?_⟩
  refine ⟨⟨4096, 2101248⟩, by simp [regions], 4208, by decide, by decide, fun q held => ?_⟩
  rw [allocated, List.mem_singleton] at held
  subst held
  rw [size_eq]
  decide

end LaTTe.Gc.Manual
