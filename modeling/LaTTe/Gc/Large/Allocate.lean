import LaTTe.Gc.Large.Search
import LaTTe.Gc.Manual.Blocks
import LaTTe.Gc.Regions.Accounts
import LaTTe.Gc.Regions.Expansion

namespace LaTTe.Gc

open LaTTe.Data Manual

namespace Space

/-! `gc_malloc_large` before the object is added to the set. -/

def largeRegions (space : Space) : List Region :=
  (space.table.filter (·.type = .large)).map fun region => ⟨region.start, region.stop⟩

theorem largeRegions_congr {space after : Space} (same : after.table = space.table) :
    after.largeRegions = space.largeRegions := by
  rw [largeRegions, largeRegions, same]

structure Attempt (before after : Space) (allocated : List Nat) (request t : Nat) : Prop where
  sound : ∃ layout, Sound ⟨after.large, after.largeRegions,
    if t = 0 then allocated else t :: allocated⟩ layout
  untouched : ∀ q ∈ allocated, Untouched before.large.memory after.large.memory q
  regions : ∀ region ∈ after.largeRegions, region ∈ before.largeRegions ∨
    ∃ start rest, askSystem before.answers = some (some start, rest) ∧
      region = newRegion request start
  new : t ≠ 0 → t ∉ allocated ∧ Gc.size after.large.memory t = roundedSize request ∧
    ∀ address, t ≤ address → address < t + (roundedSize request - gcHead) →
      after.large.memory address = 0

section

variable {space after next : Space} {allocated : List Nat} {regions : List Region}
  {layout : Region → List Nat} {heap : GcHeap} {request t : Nat}

theorem sound_regions_congr (sound : Sound ⟨heap, regions, allocated⟩ layout)
    {others : List Region} (same : ∀ region, region ∈ others ↔ region ∈ regions) :
    Sound ⟨heap, others, allocated⟩ layout where
  regions := fun region inRegions => sound.regions region ((same region).mp inRegions)
  apart := fun region inRegions other inOther =>
    sound.apart region ((same region).mp inRegions) other ((same other).mp inOther)
  held := by
    intro p member
    obtain ⟨region, inRegions, inLayout⟩ := sound.held p member
    exact ⟨region, (same region).mpr inRegions, inLayout⟩
  lists := sound.lists.ext fun p => by simp only [IsFree, HasLump, same]

theorem Attempt.start (sound : Sound ⟨space.large, space.largeRegions, allocated⟩ layout) :
    Attempt space space allocated request 0 :=
  ⟨⟨layout, sound⟩, fun q _ => .refl _ q, fun _ member => .inl member, fun nonzero =>
    absurd rfl nonzero⟩

theorem Attempt.allocate (before : Attempt space after allocated request 0)
    (fits : request + 27 < wordSize) (run : memAllocate after.large request = some (heap, t)) :
    Attempt space { after with large := heap } allocated request t := by
  obtain ⟨layout, sound⟩ := before.sound
  rw [if_pos rfl] at sound
  obtain ⟨heap', t', run', _, outcome⟩ := memAllocate_sound sound fits
  obtain ⟨rfl, rfl⟩ := Prod.mk.inj (Option.some.inj (run.symm.trans run'))
  rcases outcome with ⟨rfl, rfl⟩ | ⟨nonzero, new, size_eq, untouched, layout', grown⟩
  · exact before
  · refine ⟨⟨layout', ?_⟩, fun q held => (before.untouched q held).trans (untouched q held),
      before.regions, fun _ => ⟨new, size_eq, ?_⟩⟩
    · rw [if_neg nonzero]
      exact grown
    · exact fun address low high => memAllocate_clear fits run nonzero low high

theorem mem_insertEntry {table : List TableRegion} {entry region : TableRegion} :
    region ∈ insertEntry table entry ↔ region = entry ∨ region ∈ table := by
  have split : (table.reverse.takeWhile fun node => decide (entry.start < node.start)) ++
      table.reverse.dropWhile (fun node => decide (entry.start < node.start)) = table.reverse :=
    List.takeWhile_append_dropWhile
  have parts : region ∈ table ↔
      region ∈ table.reverse.takeWhile (fun node => decide (entry.start < node.start)) ∨
        region ∈ table.reverse.dropWhile (fun node => decide (entry.start < node.start)) := by
    rw [← List.mem_append, split, List.mem_reverse]
  rw [insertEntry, parts, List.mem_append, List.mem_cons, List.mem_reverse, List.mem_reverse]
  tauto

theorem mem_largeRegions {region : Region} :
    region ∈ space.largeRegions ↔ ⟨region.start, region.stop, .large⟩ ∈ space.table := by
  simp only [largeRegions, List.mem_map, List.mem_filter, decide_eq_true_eq]
  constructor
  · rintro ⟨entry, ⟨member, large⟩, rfl⟩
    rwa [← large]
  · exact fun member => ⟨_, ⟨member, rfl⟩, rfl⟩

theorem Attempt.expand (sound : Sound ⟨space.large, space.largeRegions, allocated⟩ layout)
    (fits : (Call.expand request none).Fits)
    (answers : Answers space.answers space.largeRegions request) {result : Int}
    (run : space.memExpand .large request = some (after, result)) :
    Attempt space after allocated request 0 := by
  obtain ⟨⟨obtained, region⟩, asked, run⟩ := Option.bind_eq_some_iff.mp run
  obtain ⟨⟨heap, _⟩, expands, run⟩ := Option.bind_eq_some_iff.mp run
  obtain ⟨rfl, rfl⟩ := Prod.mk.inj (Option.some.inj run)
  cases regionAllocate_step asked with
  | refused rest =>
      cases expands
      exact ⟨⟨layout, sound⟩, fun q _ => .refl _ q, fun _ member => .inl member,
        fun nonzero => absurd rfl nonzero⟩
  | granted start rest within answered =>
      obtain ⟨inRange, fresh⟩ := answers.fresh start rest answered
      obtain ⟨heap', layout', expands', grown, _, _, _, untouched⟩ :=
        memExpand_sound sound fits (askSystem_aligned answered) inRange fresh
      obtain ⟨rfl, _⟩ := Prod.mk.inj (Option.some.inj (expands.symm.trans expands'))
      have added (region : Region) :
          region ∈ ({ space with
              answers := rest
              large := heap
              table := insertEntry space.table
                ⟨start, start + regionSize request, .large⟩ } : Space).largeRegions ↔
            region ∈ newRegion request start :: space.largeRegions := by
        obtain ⟨first, last⟩ := region
        rw [mem_largeRegions, mem_insertEntry, List.mem_cons, mem_largeRegions]
        simp only [TableRegion.mk.injEq, and_true, newRegion, Region.mk.injEq]
      refine ⟨⟨layout', sound_regions_congr grown added⟩, untouched, ?_,
        fun nonzero => absurd rfl nonzero⟩
      intro region member
      rcases List.mem_cons.mp ((added region).mp member) with rfl | old
      · exact .inr ⟨start, rest, answered, rfl⟩
      · exact .inl old

theorem Attempt.retry (sound : Sound ⟨space.large, space.largeRegions, allocated⟩ layout)
    (fits : (Call.expand request none).Fits)
    (answers : Answers space.answers space.largeRegions request)
    (run : space.expandAndRetry .large request (fun heap => memAllocate heap request) =
      some (after, t)) : Attempt space after allocated request t := by
  obtain ⟨⟨expanded, result⟩, expands, run⟩ := Option.bind_eq_some_iff.mp run
  have grown := Attempt.expand sound fits answers expands
  dsimp only at run
  split at run
  · obtain ⟨rfl, rfl⟩ := Prod.mk.inj (Option.some.inj run)
    exact grown
  · split at run
    · split at run
      · cases run
      · rename_i allocates _
        obtain ⟨rfl, rfl⟩ := Prod.mk.inj (Option.some.inj run)
        exact grown.allocate fits.allocate allocates
    · cases run

def Result.pointer : Result → Nat
  | .allocated p => p
  | .outOfMemory => 0
  | .collecting => 0

theorem Attempt.result {taken : Space × Nat} {result : Result}
    (attempt : Attempt space taken.1 allocated request taken.2)
    (same : some (largeResult taken) = some (after, result)) :
    Attempt space after allocated request result.pointer ∧ result ≠ .allocated 0 := by
  obtain ⟨rfl, rfl⟩ := Prod.mk.inj (Option.some.inj same)
  have pointer : (if taken.2 = 0 then Result.outOfMemory else .allocated taken.2).pointer =
      taken.2 := by
    split
    · exact (‹taken.2 = 0›).symm
    · rfl
  rw [pointer]
  refine ⟨attempt, ?_⟩
  split
  · exact Result.noConfusion
  · rename_i nonzero
    exact fun zero => nonzero (Result.allocated.inj zero)

variable {size : Nat} {result : Result}

theorem largeSize_eq (fits : (Call.expand (size + 12) none).Fits) : largeSize size = size + 12 := by
  unfold Call.Fits at fits
  exact Nat.mod_eq_of_lt (by omega)

theorem gcMallocLarge_attempt
    (sound : Sound ⟨space.large, space.largeRegions, allocated⟩ layout)
    (fits : (Call.expand (size + 12) none).Fits)
    (answers : Answers space.answers space.largeRegions (size + 12))
    (run : space.gcMallocLarge size = some (after, result)) :
    Attempt space after allocated (size + 12) result.pointer ∧ result ≠ .allocated 0 := by
  rw [gcMallocLarge, largeSize_eq fits] at run
  obtain ⟨⟨heap, p⟩, allocates, run⟩ := Option.bind_eq_some_iff.mp run
  dsimp only at run
  split at run
  · split at run
    · obtain ⟨taken, retries, run⟩ := Option.bind_eq_some_iff.mp run
      exact (Attempt.retry sound fits answers retries).result run
    · obtain ⟨rfl, rfl⟩ := Prod.mk.inj (Option.some.inj run)
      exact ⟨.start sound, Result.noConfusion⟩
  · rename_i nonzero
    obtain ⟨rfl, rfl⟩ := Prod.mk.inj (Option.some.inj run)
    exact ⟨(Attempt.start sound).allocate fits.allocate allocates,
      fun zero => nonzero (Result.allocated.inj zero)⟩

theorem resumeLargeAllocate_attempt
    (sound : Sound ⟨space.large, space.largeRegions, allocated⟩ layout)
    (fits : (Call.expand (size + 12) none).Fits)
    (answers : Answers space.answers space.largeRegions (size + 12))
    (run : space.resumeLargeAllocate size = some (after, result)) :
    Attempt space after allocated (size + 12) result.pointer ∧ result ≠ .allocated 0 := by
  rw [resumeLargeAllocate, largeSize_eq fits] at run
  obtain ⟨⟨heap, p⟩, allocates, run⟩ := Option.bind_eq_some_iff.mp run
  dsimp only at run
  split at run
  · obtain ⟨taken, retries, run⟩ := Option.bind_eq_some_iff.mp run
    exact (Attempt.retry sound fits answers retries).result run
  · rename_i nonzero
    obtain ⟨rfl, rfl⟩ := Prod.mk.inj (Option.some.inj run)
    exact ⟨(Attempt.start sound).allocate fits.allocate allocates,
      fun zero => nonzero (Result.allocated.inj zero)⟩

end

end Space

end LaTTe.Gc
