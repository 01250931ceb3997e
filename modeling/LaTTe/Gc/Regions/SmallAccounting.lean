import LaTTe.Gc.Regions.Limit

namespace LaTTe.Gc

open LaTTe.Data

/-! The count of what has been allocated in the small object area.  The fast path leaves it
alone: a free area is added when it becomes the current one, and what is left of it is
subtracted when it is switched out. -/

/-- The memory manager with `gc_stats.small_alloc`.  `handed` is the total size of the small
objects handed out since the count was last reset. -/
structure Tally where
  space : Space
  smallAlloc : BitVec 32
  handed : Nat

namespace Small

/-- `(char*)small_bound - (char*)small_cursor`. -/
def rest (area : Small) : Nat :=
  area.bound - area.cursor

end Small

namespace Tally

def closeCursor (tally : Tally) : Tally :=
  if tally.space.area.cursor < tally.space.area.bound then
    { tally with
      space := tally.space.closeSmall
      smallAlloc := tally.smallAlloc - BitVec.ofNat 32 tally.space.area.rest }
  else
    tally

def finishSmall (tally : Tally) (area : Small) (tmp size : Nat) : Tally × Space.Result :=
  let (space, result) := tally.space.finishSmall area tmp size
  ({ tally with space := space, handed := tally.handed + size }, result)

/-- `get_small_chunk` and the end of `gc_malloc_small`. -/
def takeSmall (tally : Tally) (size : Nat) : Option (Tally × Space.Result) :=
  (tally.space.area.getSmallChunk size).map fun (cursor, area) =>
    let smallAlloc := tally.smallAlloc + BitVec.ofNat 32 (area.bound - cursor)
    { tally with smallAlloc := smallAlloc }.finishSmall area cursor size

/-- The last attempts of `slow_small_allocate`. -/
def expandAndAllocateSmall (tally : Tally) (size : Nat) : Option (Tally × Space.Result) := do
  let (space, grant) ← tally.space.expandSmallArea
  let tally := { tally with space := space }
  match grant with
  | .noTable => some (tally, .outOfMemory)
  | _ => some ((tally.takeSmall size).getD (tally, .outOfMemory))

/-- `slow_small_allocate` behind `gc_invoke`. -/
def resumeSmallAllocate (tally : Tally) (size : Nat) : Option (Tally × Space.Result) :=
  match tally.closeCursor.takeSmall size with
  | some taken => some taken
  | none => tally.closeCursor.expandAndAllocateSmall size

/-- `slow_small_allocate` up to `gc_invoke`. -/
def slowSmallAllocate (tally : Tally) (size : Nat) : Option (Tally × Space.Result) :=
  let tally := tally.closeCursor
  match tally.takeSmall size with
  | some taken => some taken
  | none =>
      if tally.space.smallRoom then
        tally.expandAndAllocateSmall size
      else
        let area := { tally.space.area with cursor := 0, bound := 0 }
        some ({ tally with space := { tally.space with area := area } }, .collecting)

def gcMallocSmall (tally : Tally) (size : Nat) : Option (Tally × Space.Result) :=
  let area := tally.space.area
  if area.bound < area.cursor + size then
    tally.slowSmallAllocate size
  else
    some (tally.finishSmall { area with cursor := area.cursor + size } area.cursor size)

/-- A garbage collection.  The count is reset after `prepare_gc_small` has settled it. -/
def collect (tally : Tally) (collection : Space.Collection) : Option Tally := do
  let space ← tally.space.collect collection
  some { space := space, smallAlloc := 0, handed := 0 }

/-- The assertions at the beginning of `gc_malloc_small`. -/
def Asserted (size : Nat) : Prop :=
  0 < size ∧ size % memAlign = 0 ∧ size < gcMaxSmallObjectSize

instance (size : Nat) : Decidable (Asserted size) :=
  inferInstanceAs (Decidable (_ ∧ _ ∧ _))

def exec (tally : Tally) : Space.Event → Option Tally
  | .mallocSmall size =>
      if Asserted size then (tally.gcMallocSmall size).map Prod.fst else none
  | .resumeSmall size =>
      if Asserted size then (tally.resumeSmallAllocate size).map Prod.fst else none
  | .collect collection => tally.collect collection
  | event => (tally.space.exec event).map fun space => { tally with space := space }

/-- The comment on the accounting scheme: the count without the unused part of the current
free area is what has been handed out. -/
def Accurate (tally : Tally) : Prop :=
  tally.smallAlloc - BitVec.ofNat 32 tally.space.area.rest = BitVec.ofNat 32 tally.handed

end Tally

namespace Small

variable {area after : Small} {size tmp : Nat}

theorem closeCursor_rest (area : Small) : area.closeCursor.rest = area.rest := by
  unfold closeCursor
  split <;> rfl

theorem getSmallChunk_room (small : size < gcMaxSmallObjectSize)
    (found : area.getSmallChunk size = some (tmp, after)) :
    after.cursor = tmp + size ∧ tmp + size ≤ after.bound := by
  unfold getSmallChunk at found
  split at found
  · rename_i fits
    obtain ⟨rfl, rfl⟩ := Prod.mk.inj (Option.some.inj found)
    exact ⟨rfl, Nat.add_le_add_left fits.2 _⟩
  · split at found
    · obtain ⟨rfl, rfl⟩ := Prod.mk.inj (Option.some.inj found)
      refine ⟨rfl, ?_⟩
      dsimp only
      unfold firstHeader blockBound gcBlockSize memAlign gcHead gcMaxSmallObjectSize at *
      omega
    · cases found

theorem getSmallChunk_null {start size : Nat} {table : Nat → BitVec 32}
    (positive : 0 < size) (failed : area.getSmallChunk size = none)
    (null : start = 0) (expanded : area.expandSmallArea (.region start table) = some after) :
    after.getSmallChunk size = none := by
  obtain rfl := Option.some.inj expanded
  subst null
  unfold getSmallChunk at failed ⊢
  split at failed
  · cases failed
  · rename_i noChunk
    rw [if_neg, if_neg (by simp)]
    intro ⟨found, fits⟩
    refine noChunk ⟨found, ?_⟩
    change size ≤ clearFlag (((area.memory.store 0 gcRegionSize).store 4 0) area.chunks) .free
      at fits
    rcases eq_or_ne area.chunks 4 with four | other
    · have cleared : clearFlag 0 .free = 0 := by decide
      rw [four, Memory.store_same, cleared] at fits
      omega
    · rwa [Memory.store_other _ _ other, Memory.store_other _ _ found] at fits

end Small

namespace Space

variable {space next : Space}

/-- The limit and the system allow a region for the small object area, and memory for its
block usage table if that is needed. -/
structure Granted (space : Space) : Prop where
  within : space.overLimit gcRegionSize = false
  answered : ∃ start rest, askSystem space.answers = some (some start, rest) ∧ start ≠ 0 ∧
    (space.tablePos < smallBlocksTableSize ∨ ¬allocateTable.Lacks space.fixed ∨ Grants rest)

theorem Granted.closeSmall_iff : space.closeSmall.Granted ↔ space.Granted :=
  ⟨fun granted => ⟨granted.within, granted.answered⟩,
    fun granted => ⟨granted.within, granted.answered⟩⟩

/-- The area cannot be expanded although something of the current free area is left: that
has been subtracted already. -/
structure LosesRest (space : Space) (event : Event) : Prop where
  expands : Expands space event .small
  denied : ¬space.Granted
  left : space.area.rest % 2 ^ 32 ≠ 0

theorem area_regionAllocate {size : Nat} {type : RegionType} {region : Option Nat}
    (run : space.regionAllocate size type = some (next, region)) : next.area = space.area := by
  cases regionAllocate_step run with
  | refused answers => rfl
  | granted start answers => rfl

theorem area_setHeap (space : Space) (kind : ManualHeap) (heap : Manual.GcHeap) :
    (space.setHeap kind heap).area = space.area := by
  cases kind <;> rfl

theorem area_memExpand {kind : ManualHeap} {request : Nat} {result : Int}
    (run : space.memExpand kind request = some (next, result)) : next.area = space.area := by
  rw [memExpand, Option.bind_eq_bind, Option.bind_eq_some_iff] at run
  obtain ⟨⟨middle, region⟩, allocate, run⟩ := run
  rw [Option.bind_eq_bind, Option.bind_eq_some_iff] at run
  obtain ⟨⟨heap, _⟩, _, run⟩ := run
  obtain ⟨rfl, _⟩ := Prod.mk.inj (Option.some.inj run)
  exact (area_setHeap _ _ _).trans (area_regionAllocate allocate)

theorem area_expandAndRetry {kind : ManualHeap} {request p : Nat} {allocate : Allocator}
    (run : space.expandAndRetry kind request allocate = some (next, p)) :
    next.area = space.area := by
  rw [expandAndRetry, Option.bind_eq_bind, Option.bind_eq_some_iff] at run
  obtain ⟨⟨middle, result⟩, expand, run⟩ := run
  have same := area_memExpand expand
  dsimp only at run
  split at run
  · obtain ⟨rfl, _⟩ := Prod.mk.inj (Option.some.inj run)
    exact same
  · split at run
    · split at run
      · cases run
      · obtain ⟨rfl, _⟩ := Prod.mk.inj (Option.some.inj run)
        exact (area_setHeap _ _ _).trans same
    · cases run

theorem area_takeFixed {request p : Nat} {allocate : Allocator}
    (run : space.takeFixed request allocate = some (next, p)) : next.area = space.area := by
  rw [takeFixed, Option.bind_eq_bind, Option.bind_eq_some_iff] at run
  obtain ⟨⟨heap, first⟩, _, run⟩ := run
  dsimp only at run
  split at run
  · rw [Option.bind_eq_bind, Option.bind_eq_some_iff] at run
    obtain ⟨⟨after, second⟩, retry, run⟩ := run
    have same := area_expandAndRetry retry
    dsimp only at run
    split at run <;> obtain ⟨rfl, _⟩ := Prod.mk.inj (Option.some.inj run) <;> exact same
  · obtain ⟨rfl, _⟩ := Prod.mk.inj (Option.some.inj run)
    rfl

theorem area_takeLarge {size : Nat} {result : Result}
    (run : (space.expandAndRetry .large (largeSize size) fun heap =>
      Manual.memAllocate heap (largeSize size)).map largeResult = some (next, result)) :
    next.area = space.area := by
  obtain ⟨⟨after, p⟩, retry, finished⟩ := Option.map_eq_some_iff.mp run
  obtain rfl : after = next := congrArg Prod.fst finished
  exact area_expandAndRetry retry

theorem area_takeManual {size p : Nat} {heap : Manual.GcHeap} {result : Result}
    (run : (if p = 0 then
        (space.expandAndRetry .large (largeSize size) fun heap =>
          Manual.memAllocate heap (largeSize size)).bind fun taken => some (largeResult taken)
      else some ({ space with large := heap }, .allocated p)) = some (next, result)) :
    next.area = space.area := by
  split at run
  · exact area_takeLarge (by rwa [Option.map_eq_bind])
  · obtain ⟨rfl, _⟩ := Prod.mk.inj (Option.some.inj run)
    rfl

theorem area_gcFree {p : Nat} (run : space.gcFree p = some next) : next.area = space.area := by
  rw [gcFree, Option.bind_eq_bind, Option.bind_eq_some_iff] at run
  obtain ⟨heap, _, run⟩ := run
  obtain rfl := Option.some.inj run
  rfl

theorem area_gcMallocLarge {size : Nat} {result : Result}
    (run : space.gcMallocLarge size = some (next, result)) : next.area = space.area := by
  rw [gcMallocLarge, Option.bind_eq_bind, Option.bind_eq_some_iff] at run
  obtain ⟨⟨heap, p⟩, _, run⟩ := run
  dsimp only at run
  split at run
  · split at run
    · exact area_takeLarge (by rwa [Option.map_eq_bind])
    · obtain ⟨rfl, _⟩ := Prod.mk.inj (Option.some.inj run)
      rfl
  · obtain ⟨rfl, _⟩ := Prod.mk.inj (Option.some.inj run)
    rfl

theorem area_resumeLargeAllocate {size : Nat} {result : Result}
    (run : space.resumeLargeAllocate size = some (next, result)) : next.area = space.area := by
  rw [resumeLargeAllocate, Option.bind_eq_bind, Option.bind_eq_some_iff] at run
  obtain ⟨⟨heap, p⟩, _, run⟩ := run
  exact area_takeManual run

theorem rest_collect {collection : Collection} (run : space.collect collection = some next) :
    next.area.rest = 0 := by
  rw [collect, Option.bind_eq_bind, Option.bind_eq_some_iff] at run
  obtain ⟨area, swept, run⟩ := run
  rw [Option.bind_eq_bind, Option.bind_eq_some_iff] at run
  obtain ⟨large, _, run⟩ := run
  have rest : area.rest = 0 := by
    rw [Small.collect, Option.bind_eq_bind, Option.bind_eq_some_iff] at swept
    obtain ⟨prepared, prepare, swept⟩ := swept
    rw [Option.bind_eq_bind, Option.bind_eq_some_iff] at swept
    obtain ⟨_, _, swept⟩ := swept
    rw [Small.prepareGcSmall, Option.bind_eq_bind, Option.bind_eq_some_iff] at prepare
    obtain ⟨regions, _, prepare⟩ := prepare
    obtain rfl := Option.some.inj swept
    obtain rfl := Option.some.inj prepare
    rfl
  dsimp only at run
  split at run <;> obtain rfl := Option.some.inj run <;> exact rest

theorem gcMallocFixed_granted {p : Nat}
    (run : space.gcMallocFixed (smallBlocksTableSize * 4) = some (next, p)) :
    p ≠ 0 ↔ ¬allocateTable.Lacks space.fixed ∨ space.Obtains gcRegionSize := by
  rw [gcMallocFixed, takeFixed, Option.bind_eq_bind, Option.bind_eq_some_iff] at run
  obtain ⟨⟨heap, first⟩, allocated, run⟩ := run
  dsimp only at run
  split at run
  · rename_i zero
    rw [zero] at allocated
    have lacks : allocateTable.Lacks space.fixed := ⟨heap, allocated⟩
    rw [Option.bind_eq_bind, Option.bind_eq_some_iff] at run
    obtain ⟨⟨after, second⟩, retry, run⟩ := run
    have same : p = second := by
      dsimp only at run
      split at run <;> exact (congrArg Prod.snd (Option.some.inj run)).symm
    have retried := expandAndRetry_step allocateTable_keeps retry
    rw [same, or_iff_right (not_not_intro lacks), ← regionSize_table]
    cases retried with
    | failed refused _ => exact ⟨fun found => absurd rfl found, fun obtains => absurd obtains refused⟩
    | expanded _ found obtains _ => exact ⟨fun _ => obtains, fun _ => found⟩
  · rename_i found
    obtain ⟨_, rfl⟩ := Prod.mk.inj (Option.some.inj run)
    refine ⟨fun _ => .inl ?_, fun _ => found⟩
    rintro ⟨_, lacks⟩
    exact found (congrArg Prod.snd (Option.some.inj (allocated.symm.trans lacks)))

/-- What the area gets, and when it gets something of use. -/
theorem smallGrant_granted {grant : Small.Grant} (run : space.smallGrant = some (next, grant)) :
    next.area = space.area ∧
      (space.Granted ↔ ∃ start table, grant = .region start table ∧ start ≠ 0) := by
  rw [smallGrant, Option.bind_eq_bind, Option.bind_eq_some_iff] at run
  obtain ⟨⟨middle, region⟩, allocate, run⟩ := run
  have middleArea := area_regionAllocate allocate
  cases regionAllocate_step allocate with
  | refused answers refused =>
      obtain ⟨rfl, rfl⟩ := Prod.mk.inj (Option.some.inj run)
      refine ⟨middleArea, ?_, ?_⟩
      · rintro ⟨within, start, rest, asked, _⟩
        exact absurd ⟨within, start, rest, asked⟩ refused
      · rintro ⟨_, _, same, _⟩
        cases same
  | granted start answers within asked =>
      have granted_iff : space.Granted ↔ start ≠ 0 ∧ (space.tablePos < smallBlocksTableSize ∨
          ¬allocateTable.Lacks space.fixed ∨ Grants answers) := by
        constructor
        · rintro ⟨_, start', answers', asked', useful⟩
          obtain ⟨rfl, rfl⟩ : start = start' ∧ answers = answers' := by
            simpa [asked] using asked'
          exact useful
        · intro useful
          exact ⟨within, start, answers, asked, useful⟩
      rw [granted_iff]
      dsimp only at run
      split at run
      · rename_i full
        rw [Option.bind_eq_bind, Option.bind_eq_some_iff] at run
        obtain ⟨⟨after, p⟩, malloc, run⟩ := run
        have table := gcMallocFixed_granted malloc
        have obtains_iff : Obtains { space with
            answers := answers
            table := insertEntry space.table ⟨start, start + gcRegionSize, .small⟩ }
            gcRegionSize ↔ Grants answers :=
          ⟨fun obtains => obtains.grants, fun grants => ⟨within, grants⟩⟩
        rw [obtains_iff] at table
        rw [or_iff_right (Nat.not_lt.mpr full), ← table]
        have afterArea := area_takeFixed malloc
        dsimp only at run
        split at run
        · rename_i noTable
          obtain ⟨rfl, rfl⟩ := Prod.mk.inj (Option.some.inj run)
          refine ⟨afterArea, fun useful => absurd noTable useful.2, ?_⟩
          rintro ⟨_, _, same, _⟩
          cases same
        · rename_i found
          obtain ⟨rfl, rfl⟩ := Prod.mk.inj (Option.some.inj run)
          refine ⟨afterArea, fun useful => ⟨start, _, rfl, useful.1⟩, ?_⟩
          rintro ⟨_, _, same, useful⟩
          cases same
          exact ⟨useful, found⟩
      · rename_i early
        obtain ⟨rfl, rfl⟩ := Prod.mk.inj (Option.some.inj run)
        refine ⟨rfl, fun useful => ⟨start, _, rfl, useful.1⟩, ?_⟩
        rintro ⟨_, _, same, useful⟩
        cases same
        exact ⟨useful, .inl (Nat.lt_of_not_le early)⟩

theorem expandSmallArea_area {grant : Small.Grant}
    (run : space.expandSmallArea = some (next, grant)) :
    next.area = (space.area.expandSmallArea grant).getD space.area ∧
      (space.Granted ↔ ∃ start table, grant = .region start table ∧ start ≠ 0) := by
  rw [expandSmallArea, Option.bind_eq_bind, Option.bind_eq_some_iff] at run
  obtain ⟨⟨middle, granted⟩, allocate, run⟩ := run
  obtain ⟨same, granted_iff⟩ := smallGrant_granted allocate
  cases granted with
  | refused =>
      obtain ⟨rfl, rfl⟩ := Prod.mk.inj (Option.some.inj run)
      exact ⟨same, granted_iff⟩
  | noTable =>
      obtain ⟨rfl, rfl⟩ := Prod.mk.inj (Option.some.inj run)
      exact ⟨same, granted_iff⟩
  | region start table =>
      obtain ⟨rfl, rfl⟩ := Prod.mk.inj (Option.some.inj run)
      refine ⟨?_, granted_iff⟩
      rw [← same]
      rfl

end Space

namespace Tally

variable {tally next : Tally} {size : Nat} {result : Space.Result}

@[simp] theorem closeCursor_space (tally : Tally) :
    tally.closeCursor.space = tally.space.closeSmall := by
  unfold closeCursor Space.closeSmall Small.closeCursor
  split <;> rfl

@[simp] theorem closeCursor_handed (tally : Tally) :
    tally.closeCursor.handed = tally.handed := by
  unfold closeCursor
  split <;> rfl

def Settled (tally : Tally) : Prop :=
  tally.smallAlloc = BitVec.ofNat 32 tally.handed

theorem Accurate.closeCursor (accurate : tally.Accurate) : tally.closeCursor.Settled := by
  rw [Settled, closeCursor_handed, ← accurate, Tally.closeCursor]
  split
  · rfl
  · rename_i used
    have nothing : tally.space.area.rest = 0 := Nat.sub_eq_zero_of_le (Nat.le_of_not_lt used)
    rw [nothing, BitVec.sub_zero]

theorem Settled.accurate_iff (settled : tally.Settled) :
    tally.Accurate ↔ tally.space.area.rest % 2 ^ 32 = 0 := by
  rw [Accurate, settled]
  generalize tally.space.area.rest = rest
  constructor <;> intro same <;> bv_omega

theorem Settled.takeSmall (settled : tally.Settled) (small : size < gcMaxSmallObjectSize)
    (took : tally.takeSmall size = some (next, result)) : next.Accurate := by
  obtain ⟨⟨cursor, area⟩, found, finished⟩ := Option.map_eq_some_iff.mp took
  obtain ⟨start, room⟩ := Small.getSmallChunk_room small found
  obtain rfl : _ = next := congrArg Prod.fst finished
  have whole : area.bound - cursor = area.rest + size := by
    rw [Small.rest, start]
    omega
  change tally.smallAlloc + BitVec.ofNat 32 (area.bound - cursor) -
    BitVec.ofNat 32 area.rest = BitVec.ofNat 32 (tally.handed + size)
  rw [settled, whole]
  bv_omega

theorem takeSmall_eq_none_iff :
    tally.takeSmall size = none ↔ tally.space.area.getSmallChunk size = none :=
  Option.map_eq_none_iff

theorem space_takeSmall_eq_none_iff :
    tally.space.takeSmall size = none ↔ tally.space.area.getSmallChunk size = none :=
  Option.map_eq_none_iff

/-- The last attempts keep the count right unless the area cannot be expanded. -/
theorem Settled.expandAndAllocateSmall_iff (settled : tally.Settled) (asserted : Asserted size)
    (failed : tally.space.area.getSmallChunk size = none)
    (run : tally.expandAndAllocateSmall size = some (next, result)) :
    next.Accurate ↔ tally.space.Granted ∨ tally.space.area.rest % 2 ^ 32 = 0 := by
  rw [expandAndAllocateSmall, Option.bind_eq_bind, Option.bind_eq_some_iff] at run
  obtain ⟨⟨space, grant⟩, expand, run⟩ := run
  obtain ⟨area, granted_iff⟩ := Space.expandSmallArea_area expand
  let expanded : Tally := { tally with space := space }
  have settledStill : expanded.Settled := settled
  rw [granted_iff]
  cases grant with
  | noTable =>
      obtain rfl : expanded = next := congrArg Prod.fst (Option.some.inj run)
      have same : expanded.space.area = tally.space.area := area
      rw [settledStill.accurate_iff, same, or_iff_right]
      intro ⟨_, _, useful, _⟩
      cases useful
  | refused =>
      have same : expanded.space.area = tally.space.area := area
      have again : expanded.takeSmall size = none := 
        takeSmall_eq_none_iff.mpr (by rw [same, failed])
      have finished : (expanded.takeSmall size).getD (expanded, .outOfMemory) = (next, result) :=
        Option.some.inj run
      rw [again] at finished
      obtain rfl : expanded = next := congrArg Prod.fst finished
      rw [settledStill.accurate_iff, same, or_iff_right]
      intro ⟨_, _, useful, _⟩
      cases useful
  | region start table =>
      have finished : (expanded.takeSmall size).getD (expanded, .outOfMemory) = (next, result) :=
        Option.some.inj run
      have grown : tally.space.area.expandSmallArea (.region start table) =
          some expanded.space.area := congrArg some area.symm
      rcases eq_or_ne start 0 with null | useful
      · have again : expanded.takeSmall size = none :=
          takeSmall_eq_none_iff.mpr (Small.getSmallChunk_null asserted.1 failed null grown)
        have rest : expanded.space.area.rest = tally.space.area.rest := by
          rw [area]
          rfl
        rw [again] at finished
        obtain rfl : expanded = next := congrArg Prod.fst finished
        rw [settledStill.accurate_iff, rest, or_iff_right]
        intro ⟨_, _, same, useful⟩
        cases same
        exact useful null
      · have blocks : expanded.space.area.blocks ≠ 0 := by
          rw [area]
          exact useful
        obtain ⟨⟨tmp, after⟩, found⟩ := Small.getSmallChunk_some blocks size
        have took : expanded.takeSmall size = some (next, result) := by
          rw [Tally.takeSmall, found] at finished ⊢
          exact congrArg some finished
        exact iff_of_true (settledStill.takeSmall asserted.2.2 took)
          (.inl ⟨start, table, rfl, useful⟩)

theorem Accurate.expandAndAllocateSmall_iff (accurate : tally.Accurate)
    (asserted : Asserted size) (lacks : tally.closeCursor.takeSmall size = none)
    (run : tally.closeCursor.expandAndAllocateSmall size = some (next, result)) :
    next.Accurate ↔ tally.space.Granted ∨ tally.space.area.rest % 2 ^ 32 = 0 := by
  have rest : tally.space.closeSmall.area.rest = tally.space.area.rest :=
    Small.closeCursor_rest _
  rw [accurate.closeCursor.expandAndAllocateSmall_iff asserted
    (takeSmall_eq_none_iff.mp lacks) run, closeCursor_space, rest,
    Space.Granted.closeSmall_iff]

theorem closed_takeSmall_eq_none_iff :
    tally.space.closeSmall.takeSmall size = none ↔ tally.closeCursor.takeSmall size = none := by
  rw [takeSmall_eq_none_iff, ← space_takeSmall_eq_none_iff, closeCursor_space]

theorem Accurate.resumeSmallAllocate_iff (accurate : tally.Accurate) (asserted : Asserted size)
    (run : tally.resumeSmallAllocate size = some (next, result)) :
    next.Accurate ↔ ¬tally.space.LosesRest (.resumeSmall size) := by
  rw [resumeSmallAllocate] at run
  cases took : tally.closeCursor.takeSmall size with
  | some taken =>
      rw [took] at run
      obtain rfl := Option.some.inj run
      refine iff_of_true (accurate.closeCursor.takeSmall asserted.2.2 took) ?_
      intro ⟨.resumeSmall lacks, _, _⟩
      rw [closed_takeSmall_eq_none_iff, took] at lacks
      cases lacks
  | none =>
      rw [took] at run
      rw [accurate.expandAndAllocateSmall_iff asserted took run]
      constructor
      · intro kept loses
        exact kept.elim loses.denied loses.left
      · intro kept
        by_contra lost
        rw [not_or] at lost
        exact kept ⟨.resumeSmall (closed_takeSmall_eq_none_iff.mpr took), lost.1, lost.2⟩

theorem Accurate.finishSmall (accurate : tally.Accurate)
    (fits : tally.space.area.cursor + size ≤ tally.space.area.bound) :
    (tally.finishSmall { tally.space.area with cursor := tally.space.area.cursor + size }
      tally.space.area.cursor size).1.Accurate := by
  have left : tally.space.area.rest =
      tally.space.area.bound - (tally.space.area.cursor + size) + size := by
    rw [Small.rest]
    omega
  change tally.smallAlloc -
      BitVec.ofNat 32 (tally.space.area.bound - (tally.space.area.cursor + size)) =
    BitVec.ofNat 32 (tally.handed + size)
  rw [Accurate, left] at accurate
  bv_omega

theorem Accurate.gcMallocSmall_iff (accurate : tally.Accurate) (asserted : Asserted size)
    (run : tally.gcMallocSmall size = some (next, result)) :
    next.Accurate ↔ ¬tally.space.LosesRest (.mallocSmall size) := by
  rw [gcMallocSmall] at run
  split at run
  · rename_i slow
    rw [slowSmallAllocate] at run
    cases took : tally.closeCursor.takeSmall size with
    | some taken =>
        rw [took] at run
        obtain rfl := Option.some.inj run
        refine iff_of_true (accurate.closeCursor.takeSmall asserted.2.2 took) ?_
        intro ⟨.mallocSmall _ lacks _, _, _⟩
        rw [closed_takeSmall_eq_none_iff, took] at lacks
        cases lacks
    | none =>
        rw [took, closeCursor_space] at run
        have sameRoom : tally.space.closeSmall.smallRoom = tally.space.smallRoom := rfl
        rw [sameRoom] at run
        dsimp only at run
        split at run
        · rename_i room
          rw [accurate.expandAndAllocateSmall_iff asserted took run]
          constructor
          · intro kept loses
            exact kept.elim loses.denied loses.left
          · intro kept
            by_contra lost
            rw [not_or] at lost
            have lacks := closed_takeSmall_eq_none_iff.mpr took
            exact kept ⟨.mallocSmall slow lacks room, lost.1, lost.2⟩
        · rename_i noRoom
          obtain rfl : _ = next := congrArg Prod.fst (Option.some.inj run)
          refine iff_of_true ?_ fun ⟨.mallocSmall _ _ room, _, _⟩ => noRoom room
          have settled := accurate.closeCursor
          rw [Settled] at settled
          change tally.closeCursor.smallAlloc - BitVec.ofNat 32 0 = _
          rw [settled, BitVec.sub_zero]
  · rename_i fast
    obtain rfl : _ = next := congrArg Prod.fst (Option.some.inj run)
    refine iff_of_true (accurate.finishSmall (Nat.le_of_not_lt fast)) ?_
    intro ⟨.mallocSmall slow _ _, _, _⟩
    exact fast slow

theorem collect_accurate {collection : Space.Collection}
    (run : tally.collect collection = some next) : next.Accurate := by
  rw [collect, Option.bind_eq_bind, Option.bind_eq_some_iff] at run
  obtain ⟨space, collected, run⟩ := run
  obtain rfl := Option.some.inj run
  have rest := Space.rest_collect collected
  change 0#32 - BitVec.ofNat 32 space.area.rest = BitVec.ofNat 32 0
  rw [rest]
  rfl

theorem Accurate.other {space : Space} (accurate : tally.Accurate)
    (area : space.area.rest = tally.space.area.rest) :
    ({ tally with space := space } : Tally).Accurate := by
  rwa [Accurate, area]

/-- An event keeps the count right exactly if it does not subtract the rest of a free area
that stays the current one. -/
theorem Accurate.exec_iff {event : Space.Event} (accurate : tally.Accurate)
    (run : tally.exec event = some next) :
    next.Accurate ↔ ¬tally.space.LosesRest event := by
  cases event with
  | mallocSmall size =>
      rw [exec] at run
      split at run
      · rename_i asserted
        obtain ⟨⟨after, result⟩, taken, rfl⟩ := Option.map_eq_some_iff.mp run
        exact accurate.gcMallocSmall_iff asserted taken
      · cases run
  | resumeSmall size =>
      rw [exec] at run
      split at run
      · rename_i asserted
        obtain ⟨⟨after, result⟩, taken, rfl⟩ := Option.map_eq_some_iff.mp run
        exact accurate.resumeSmallAllocate_iff asserted taken
      · cases run
  | collect collection =>
      exact iff_of_true (collect_accurate run) fun loses => nomatch loses.expands
  | mallocFixed size =>
      obtain ⟨space, ran, rfl⟩ := Option.map_eq_some_iff.mp run
      obtain ⟨⟨after, p⟩, taken, rfl⟩ := Option.map_eq_some_iff.mp ran
      exact iff_of_true (accurate.other (congrArg Small.rest (Space.area_takeFixed taken)))
        fun loses => nomatch loses.expands
  | reallocFixed p size =>
      obtain ⟨space, ran, rfl⟩ := Option.map_eq_some_iff.mp run
      obtain ⟨⟨after, t⟩, taken, rfl⟩ := Option.map_eq_some_iff.mp ran
      exact iff_of_true (accurate.other (congrArg Small.rest (Space.area_takeFixed taken)))
        fun loses => nomatch loses.expands
  | free p =>
      obtain ⟨space, freed, rfl⟩ := Option.map_eq_some_iff.mp run
      exact iff_of_true (accurate.other (congrArg Small.rest (Space.area_gcFree freed)))
        fun loses => nomatch loses.expands
  | mallocLarge size =>
      obtain ⟨space, ran, rfl⟩ := Option.map_eq_some_iff.mp run
      obtain ⟨⟨after, result⟩, taken, rfl⟩ := Option.map_eq_some_iff.mp ran
      exact iff_of_true (accurate.other (congrArg Small.rest (Space.area_gcMallocLarge taken)))
        fun loses => nomatch loses.expands
  | resumeLarge size =>
      obtain ⟨space, ran, rfl⟩ := Option.map_eq_some_iff.mp run
      obtain ⟨⟨after, result⟩, taken, rfl⟩ := Option.map_eq_some_iff.mp ran
      exact iff_of_true
        (accurate.other (congrArg Small.rest (Space.area_resumeLargeAllocate taken)))
        fun loses => nomatch loses.expands
  | write fixed large small =>
      obtain rfl := Option.some.inj run
      exact iff_of_true (accurate.other rfl) fun loses => nomatch loses.expands

def boot (space : Space) : Tally where
  space := space
  smallAlloc := 0
  handed := 0

theorem boot_accurate {space : Space} (initial : space.Initial) : (boot space).Accurate := by
  have rest : space.area.rest = 0 := by
    rw [initial.area]
    rfl
  change 0#32 - BitVec.ofNat 32 space.area.rest = BitVec.ofNat 32 0
  rw [rest]
  rfl

/-- In a run from the beginning the count is right in every state exactly if no event loses
the rest of a free area. -/
theorem small_alloc_accurate_iff {space : Space} (initial : space.Initial)
    {past : List (Tally × Space.Event)} {final : Tally}
    (trace : Trace exec (boot space) past final) :
    ((∀ step ∈ past, step.1.Accurate) ∧ final.Accurate) ↔
      ∀ step ∈ past, ¬step.1.space.LosesRest step.2 :=
  trace.throughout_iff (fun _ _ _ accurate run => accurate.exec_iff run)
    (boot_accurate initial)

/-! Objects of 1016 bytes until the first region is full: four of them fit into a block, and
24 bytes are left. -/

private def start : Space where
  limit := 2 ^ 30
  heapSize := 8 * 2 ^ 20
  table := []
  fixed := Manual.memInit fun _ => 0
  large := Manual.memInit fun _ => 0
  area := ⟨fun _ => 0, [], 0, 0, 0, 0⟩
  smallSize := 0
  tablePos := 0
  answers := [some 4194304, none]

private theorem start_initial : start.Initial :=
  ⟨rfl, rfl, rfl, rfl, rfl, rfl, by decide⟩

/-- An event that does not come to `expand_small_area` with a rest. -/
private def Calm (tally : Tally) (event : Space.Event) : Prop :=
  tally.space.area.rest = 0 ∨
    match event with
    | .mallocSmall size => tally.space.area.cursor + size ≤ tally.space.area.bound
    | .resumeSmall _ => False
    | _ => True

private theorem not_losesRest_of_calm {tally : Tally} {event : Space.Event}
    (calm : Calm tally event) : ¬tally.space.LosesRest event := by
  rintro ⟨expands, _, left⟩
  rcases calm with none | calm
  · rw [none] at left
    exact left rfl
  · cases expands with
    | mallocSmall slow _ _ => exact Nat.not_lt.mpr calm slow
    | resumeSmall _ => exact calm

private instance (tally : Tally) (event : Space.Event) : Decidable (Calm tally event) :=
  match event with
  | .mallocSmall _ => inferInstanceAs (Decidable (_ ∨ _ ≤ _))
  | .resumeSmall _ => inferInstanceAs (Decidable (_ ∨ False))
  | .mallocFixed _ | .reallocFixed _ _ | .free _ | .mallocLarge _ | .resumeLarge _ | .collect _
  | .write _ _ _ => inferInstanceAs (Decidable (_ ∨ True))

private def secondKept : List Space.Event :=
  [.mallocSmall 1016, .mallocSmall 40, .collect ⟨[4195324], .normal, [], false, 0⟩,
    .mallocSmall 24]

theorem small_alloc_accurate_iff_first :
    ∃ past final, past.map Prod.snd = secondKept ∧ Trace exec (boot start) past final ∧
      (∀ step ∈ past, step.1.Accurate) ∧ final.Accurate := by
  have runs : (secondKept.foldlM (fun tally event =>
      if Calm tally event then exec tally event else none) (boot start)).isSome = true := by
    decide +kernel
  obtain ⟨final, run⟩ := Option.isSome_iff_exists.mp runs
  obtain ⟨past, events, trace, calm⟩ := Trace.start.checked nofun run
  exact ⟨past, final, events, trace, (small_alloc_accurate_iff start_initial trace).mpr
    fun step member => not_losesRest_of_calm (calm step member)⟩

private def filled (block : Nat) : Nat :=
  4194304 + block * gcBlockSize

private theorem getSmallChunk_block {area : Small} (noChunk : area.chunks = 0)
    (found : area.blocks ≠ 0) (size : Nat) :
    area.getSmallChunk size = some (firstHeader area.blocks,
      { area.getSmallBlock.2 with
        cursor := firstHeader area.blocks + size
        bound := blockBound area.blocks }) := by
  have first : area.getSmallBlock.1 = area.blocks := by
    unfold Small.getSmallBlock
    dsimp only
    split <;> rfl
  rw [Small.getSmallChunk, if_neg (by omega), if_pos found]
  dsimp only
  rw [first]

private theorem getSmallBlock_last {area : Small}
    (last : area.memory area.blocks = gcBlockSize) :
    area.getSmallBlock.2 = { area with blocks := link area.memory area.blocks } := by
  rw [Small.getSmallBlock]
  dsimp only
  rw [if_pos last]

private theorem getSmallBlock_more {area : Small}
    (more : area.memory area.blocks ≠ gcBlockSize) :
    area.getSmallBlock.2 = { area with
      blocks := area.blocks + gcBlockSize
      memory := (area.memory.store (area.blocks + gcBlockSize)
        (area.memory area.blocks - gcBlockSize)).store (area.blocks + gcBlockSize + 4)
          (link (area.memory.store (area.blocks + gcBlockSize)
            (area.memory area.blocks - gcBlockSize)) area.blocks) } := by
  rw [Small.getSmallBlock]
  dsimp only
  rw [if_neg more]

private structure OneGroup (count : Nat) (area : Small) : Prop where
  chunks : area.chunks = 0
  blocks : area.blocks = if count < 512 then filled count else 0
  group : count < 512 → area.memory (filled count) = (512 - count) * gcBlockSize ∧
    area.memory (filled count + 4) = 0

private theorem OneGroup.take {count : Nat} {area : Small} (group : OneGroup count area)
    (more : count < 512) : OneGroup (count + 1) area.getSmallBlock.2 := by
  obtain ⟨chunks, blocks, header⟩ := group
  obtain ⟨size, behind⟩ := header more
  rw [if_pos more] at blocks
  have next : filled count + gcBlockSize = filled (count + 1) := by
    unfold filled gcBlockSize
    omega
  rw [← blocks] at size behind
  rcases Nat.lt_or_ge (count + 1) 512 with another | last
  · have several : area.memory area.blocks ≠ gcBlockSize := by
      unfold gcBlockSize at *
      omega
    rw [getSmallBlock_more several, size, blocks, next]
    refine ⟨chunks, (if_pos another).symm, fun _ => ⟨?_, ?_⟩⟩
    · dsimp only
      rw [Memory.store_other _ _ (by omega), Memory.store_same]
      unfold gcBlockSize
      omega
    · dsimp only
      rw [Memory.store_same, link, Memory.store_other _ _ (by unfold gcBlockSize at *; omega),
        ← blocks]
      exact behind
  · have sole : area.memory area.blocks = gcBlockSize := by
      rw [size]
      unfold gcBlockSize
      omega
    rw [getSmallBlock_last sole]
    exact ⟨chunks, by rw [if_neg (by omega)]; exact behind, fun another => by omega⟩

private theorem OneGroup.store {count : Nat} {area : Small} (group : OneGroup count area)
    {memory : Memory} (outside : ∀ address, filled count ≤ address →
      memory address = area.memory address) : OneGroup count { area with memory := memory } := by
  refine ⟨group.chunks, group.blocks, fun more => ?_⟩
  obtain ⟨size, behind⟩ := group.group more
  exact ⟨(outside _ (Nat.le_refl _)).trans size, (outside _ (Nat.le_add_right _ _)).trans behind⟩

private structure Filling (count : Nat) (tally : Tally) : Prop where
  answers : tally.space.answers = [none]
  room : tally.space.smallRoom = true
  cursor : tally.space.area.cursor = filled (count / 4) + 4 + (count % 4 + 1) * 1016
  bound : tally.space.area.bound = filled (count / 4) + 4092
  group : OneGroup (count / 4 + 1) tally.space.area

private def words (tally : Tally) : List Nat :=
  [tally.space.area.chunks, tally.space.area.cursor, tally.space.area.bound,
    tally.space.area.blocks, tally.space.area.memory (filled 1),
    tally.space.area.memory (filled 1 + 4)]

private theorem filling_first :
    ∃ next, (boot start).exec (.mallocSmall 1016) = some next ∧ Filling 0 next := by
  have ran : (((boot start).exec (.mallocSmall 1016)).map fun next =>
      (next.space.answers, next.space.smallRoom, words next)) =
      some ([none], true,
        [0, filled 0 + 1020, filled 0 + 4092, filled 1, 511 * gcBlockSize, 0]) := by
    decide +kernel
  obtain ⟨next, run, same⟩ := Option.map_eq_some_iff.mp ran
  simp only [Prod.mk.injEq, words, List.cons.injEq, and_true] at same
  obtain ⟨answers, room, chunks, cursor, bound, blocks, size, last⟩ := same
  exact ⟨next, run, answers, room, cursor, bound, chunks, blocks, fun _ => ⟨size, last⟩⟩

private theorem filled_succ (count : Nat) : filled count + 4096 = filled (count + 1) := by
  unfold filled gcBlockSize
  omega

private theorem Filling.fast {count : Nat} {tally : Tally} (filling : Filling count tally)
    (more : count % 4 < 3) :
    ∃ next, tally.exec (.mallocSmall 1016) = some next ∧ Filling (count + 1) next := by
  obtain ⟨answers, room, cursor, bound, group⟩ := filling
  have block : (count + 1) / 4 = count / 4 := by omega
  have object : (count + 1) % 4 = count % 4 + 1 := by omega
  have fits : ¬tally.space.area.bound < tally.space.area.cursor + 1016 := by omega
  have later := filled_succ (count / 4)
  refine ⟨_, by rw [exec, if_pos (by decide), gcMallocSmall, if_neg fits]; rfl, ?_⟩
  refine ⟨answers, room, ?_, ?_, ?_⟩
  · rw [block, object]
    change tally.space.area.cursor + 1016 = _
    omega
  · rw [block]
    exact bound
  · rw [block]
    have stored : OneGroup (count / 4 + 1) { tally.space.area with
        memory := (Small.zero tally.space.area.memory tally.space.area.cursor 1016).store
          tally.space.area.cursor 1016 } := by
      apply group.store
      intro address above
      rw [Memory.store_other _ _ (by omega), Small.zero, if_neg (by omega)]
    exact ⟨stored.chunks, stored.blocks, stored.group⟩

/-- The first object of the next block. -/
private theorem Filling.slow {count : Nat} {tally : Tally} (filling : Filling count tally)
    (full : count % 4 = 3) (more : count / 4 + 1 < 512) :
    ∃ next, tally.exec (.mallocSmall 1016) = some next ∧ Filling (count + 1) next := by
  obtain ⟨answers, room, cursor, bound, group⟩ := filling
  have block : (count + 1) / 4 = count / 4 + 1 := by omega
  have object : (count + 1) % 4 = 0 := by omega
  have exhausted : tally.space.area.bound < tally.space.area.cursor + 1016 := by omega
  have later := filled_succ (count / 4)
  have latest := filled_succ (count / 4 + 1)
  have closed : OneGroup (count / 4 + 1) tally.space.closeSmall.area := by
    have written : tally.space.closeSmall.area = { tally.space.area with
        memory := tally.space.area.memory.store tally.space.area.cursor
          (setFlag (tally.space.area.bound - tally.space.area.cursor) .free) } :=
      if_pos (by omega)
    rw [written]
    exact group.store fun address above => Memory.store_other _ _ (by omega)
  have blocks : tally.space.closeSmall.area.blocks = filled (count / 4 + 1) := by
    rw [closed.blocks, if_pos more]
  have positive : tally.space.closeSmall.area.blocks ≠ 0 := by
    rw [blocks, filled]
    omega
  have found := getSmallChunk_block closed.chunks positive 1016
  rw [blocks] at found
  have taken := closed.take more
  refine ⟨_, by
    rw [exec, if_pos (by decide), gcMallocSmall, if_pos exhausted, slowSmallAllocate,
      takeSmall, closeCursor_space, found]
    rfl, ?_⟩
  refine ⟨answers, room, ?_, ?_, ?_⟩
  · rw [block, object]
    rfl
  · rw [block]
    rfl
  · rw [block]
    have stored : OneGroup (count / 4 + 1 + 1)
        { tally.space.closeSmall.area.getSmallBlock.2 with
          memory := (Small.zero tally.space.closeSmall.area.getSmallBlock.2.memory
            (filled (count / 4 + 1) + 4) 1016).store (filled (count / 4 + 1) + 4) 1016 } := by
      apply taken.store
      intro address above
      rw [Memory.store_other _ _ (by omega), Small.zero, if_neg (by omega)]
    exact ⟨stored.chunks, stored.blocks, stored.group⟩

private theorem filling_run (count : Nat) (inRegion : count < 2048) :
    ∃ past tally, Trace exec (boot start) past tally ∧ Filling count tally := by
  induction count with
  | zero =>
      obtain ⟨next, run, filling⟩ := filling_first
      exact ⟨_, next, .step .start run, filling⟩
  | succ count ih =>
      obtain ⟨past, tally, trace, filling⟩ := ih (by omega)
      have further : ∃ next, tally.exec (.mallocSmall 1016) = some next ∧
          Filling (count + 1) next := by
        rcases Nat.lt_or_ge (count % 4) 3 with fast | slow
        · exact filling.fast fast
        · exact filling.slow (by omega) (by omega)
      obtain ⟨next, run, filling⟩ := further
      exact ⟨_, next, trace.step run, filling⟩

/-- When the region is full, another allocation finds nothing, and the system refuses. -/
private theorem Filling.loses {tally : Tally} (filling : Filling 2047 tally) :
    tally.space.LosesRest (.mallocSmall 1016) ∧
      ∃ next, tally.exec (.mallocSmall 1016) = some next := by
  obtain ⟨answers, room, cursor, bound, chunks, blocks, _⟩ := filling
  have blocks : tally.space.area.blocks = 0 := blocks
  have exhausted : tally.space.area.bound < tally.space.area.cursor + 1016 := by omega
  have failed : tally.space.closeSmall.area.getSmallChunk 1016 = none := by
    have closed : tally.space.closeSmall.area.chunks = 0 ∧
        tally.space.closeSmall.area.blocks = 0 := by
      change tally.space.area.closeCursor.chunks = 0 ∧ tally.space.area.closeCursor.blocks = 0
      unfold Small.closeCursor
      split <;> exact ⟨chunks, blocks⟩
    rw [Small.getSmallChunk, if_neg (by omega), if_neg (by omega)]
  have denied : ¬tally.space.Granted := by
    intro ⟨_, _, _, asked, _⟩
    rw [answers] at asked
    cases asked
  have rest : tally.space.area.rest = 24 := by
    rw [Small.rest]
    omega
  have first : tally.closeCursor.takeSmall 1016 = none :=
    takeSmall_eq_none_iff.mpr (by rw [closeCursor_space, failed])
  have sameRoom : tally.space.closeSmall.smallRoom = true := room
  have refused : ∃ next, tally.space.closeSmall.expandSmallArea = some (next, .refused) := by
    have sameAnswers : tally.space.closeSmall.answers = [none] := answers
    rw [Space.expandSmallArea, Space.smallGrant, Space.regionAllocate]
    split
    · exact ⟨_, rfl⟩
    · rw [sameAnswers]
      exact ⟨_, rfl⟩
  obtain ⟨next, refused⟩ := refused
  refine ⟨⟨.mallocSmall exhausted (closed_takeSmall_eq_none_iff.mpr first) room, denied, ?_⟩, ?_⟩
  · rw [rest]
    decide
  · rw [exec, if_pos (by decide), gcMallocSmall, if_pos exhausted, slowSmallAllocate, first,
      closeCursor_space, sameRoom, expandAndAllocateSmall, closeCursor_space, refused]
    exact ⟨_, rfl⟩

/-- The first region has been filled and the system has no other. -/
theorem small_alloc_not_always_accurate :
    ¬∀ (space : Space) (past : List (Tally × Space.Event)) (final : Tally), space.Initial →
      Trace exec (boot space) past final →
        (∀ step ∈ past, step.1.Accurate) ∧ final.Accurate := by
  intro always
  obtain ⟨past, tally, trace, filling⟩ := filling_run 2047 (by decide)
  obtain ⟨loses, next, run⟩ := filling.loses
  obtain ⟨before, after⟩ := always start _ next start_initial (trace.step run)
  have accurate : tally.Accurate := before (tally, .mallocSmall 1016) (by simp)
  exact (accurate.exec_iff run).mp after loses

end Tally

end LaTTe.Gc
