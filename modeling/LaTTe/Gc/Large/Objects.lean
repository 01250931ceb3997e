import LaTTe.Gc.Large.Allocate
import LaTTe.Gc.Large.Sweep

namespace LaTTe.Gc

open LaTTe.Data Manual

/-! What the large object area is to the program: objects with contents of their own. -/

structure LargeHeap where
  area : LargeArea
  objects : List LargeObject

namespace LargeHeap

def allocating (heap : LargeHeap) (size : Nat) :
    LargeArea × Space.Result → BlockHeap.Action × LargeHeap
  | (area, .allocated p) => (.allocate p (.clear size), ⟨area, ⟨p, size⟩ :: heap.objects⟩)
  | (area, .outOfMemory) => (.idle, ⟨area, heap.objects⟩)
  | (area, .collecting) => (.idle, ⟨area, heap.objects⟩)

structure Granted (area : LargeArea) (size : Nat) : Prop where
  fits : (Call.expand (size + 12) none).Fits
  answers : Space.Answers area.space.answers (area.static :: area.space.largeRegions) (size + 12)

inductive Step : LargeHeap → BlockHeap.Action → LargeHeap → Prop where
  | malloc {heap : LargeHeap} {size : Nat} {taken : LargeArea × Space.Result}
      (granted : Granted heap.area size) (returns : heap.area.gcMallocLarge size = some taken) :
      Step heap (heap.allocating size taken).1 (heap.allocating size taken).2
  | resume {heap : LargeHeap} {size : Nat} {taken : LargeArea × Space.Result}
      (granted : Granted heap.area size)
      (returns : heap.area.resumeLargeAllocate size = some taken) :
      Step heap (heap.allocating size taken).1 (heap.allocating size taken).2
  | write {heap : LargeHeap} {object : LargeObject} {address value : Nat}
      (usable : object ∈ heap.objects) (low : object.p ≤ address)
      (high : address + 4 ≤ object.p + object.size) (aligned : address % 4 = 0) :
      Step heap (.write object.p (address - object.p) (wordBytes value))
        { heap with area := heap.area.store address value }
  | mark {heap : LargeHeap} {object : LargeObject} (usable : object ∈ heap.objects) :
      Step heap .idle { heap with area := heap.area.mark object.p }
  | sweep {heap : LargeHeap} {area : LargeArea} {freed : List Nat}
      (sweeps : heap.area.sweepLarge = some (area, freed)) :
      Step heap
        (.keep ((heap.objects.filter fun object => heap.area.marked object.p).map LargeObject.p))
        ⟨area, heap.objects.filter fun object => object.p ∉ freed⟩
  | elsewhere {heap : LargeHeap} {space : Space} (large : space.large = heap.area.space.large)
      (regions : space.largeRegions = heap.area.space.largeRegions) :
      Step heap .idle { heap with area := { heap.area with space := space } }

/-- The area as `gc_init` leaves it. -/
inductive Initial : LargeHeap → Prop where
  | init (area : LargeArea) (memory : Memory) (table : 0 < area.table)
      (large : area.space.large = memInit memory) (regions : area.space.largeRegions = []) :
      Initial ⟨area.largeSetInit, []⟩

structure Contains (memory : Memory) (object : LargeObject) (block : Block) : Prop where
  size : block.size = object.size
  bytes : ∀ k < object.size, byteAt memory (object.p + k) = block.contents k

structure Represents (heap : LargeHeap) (blocks : BlockHeap) : Prop where
  placed : ∃ layout, heap.area.Placed heap.area.space.largeRegions layout heap.objects
  linked : ∃ chain, heap.area.Linked heap.objects chain
  contents : ∀ object ∈ heap.objects, ∃ block, blocks object.p = some block ∧
    Contains heap.area.memory object block
  owned : ∀ p block, blocks p = some block → ∃ object ∈ heap.objects, object.p = p

variable {heap next : LargeHeap} {area after : LargeArea} {blocks : BlockHeap}
  {regions : List Region} {layout : Region → List Nat} {live : List LargeObject}
  {object : LargeObject} {memory other : Memory} {block : Block}

theorem aligned_of_placed (placed : area.Placed regions layout live) (member : object ∈ live) :
    object.p % 4 = 0 := by
  have bounds := (placed.bounds member).1
  omega

theorem Contains.congr (contains : Contains memory object block) (aligned : object.p % 4 = 0)
    (same : ∀ address, object.p ≤ address → address + 4 ≤ object.node →
      other address = memory address) : Contains other object block where
  size := contains.size
  bytes := by
    intro k below
    have spec := object.node_spec
    rw [← contains.bytes k below, byteAt, byteAt, same _ (by omega) (by omega)]

theorem Represents.keep (represents : heap.Represents blocks) {blocks' : BlockHeap}
    (placed : ∃ layout, next.area.Placed next.area.space.largeRegions layout next.objects)
    (linked : ∃ chain, next.area.Linked next.objects chain)
    (fewer : next.objects ⊆ heap.objects)
    (restricted : ∀ p block, blocks' p = some block ↔
      blocks p = some block ∧ ∃ object ∈ next.objects, object.p = p)
    (same : ∀ object ∈ next.objects, ∀ address, object.p ≤ address →
      address + 4 ≤ object.node → next.area.memory address = heap.area.memory address) :
    next.Represents blocks' where
  placed := placed
  linked := linked
  contents := by
    intro object member
    obtain ⟨_, before⟩ := represents.placed
    obtain ⟨block, found, contains⟩ := represents.contents object (fewer member)
    exact ⟨block, (restricted object.p block).mpr ⟨found, object, member, rfl⟩,
      contains.congr (aligned_of_placed before (fewer member)) (same object member)⟩
  owned := fun p block found => ((restricted p block).mp found).2

theorem Represents.idle (represents : heap.Represents blocks)
    (objects : next.objects = heap.objects)
    (placed : ∃ layout, next.area.Placed next.area.space.largeRegions layout heap.objects)
    (linked : ∃ chain, next.area.Linked heap.objects chain)
    (same : ∀ object ∈ heap.objects, ∀ address, object.p ≤ address →
      address + 4 ≤ object.node → next.area.memory address = heap.area.memory address) :
    next.Represents blocks := by
  rw [← objects] at placed linked same
  refine represents.keep placed linked (objects ▸ List.Subset.refl _) (fun p block => ?_) same
  rw [objects]
  exact (and_iff_left_of_imp (represents.owned p block)).symm

/-! Allocation. -/

structure Allocated (area : LargeArea) (space : Space) (live : List LargeObject) (size : Nat)
    (result : Space.Result) : Prop where
  attempt : Space.Attempt area.space space (live.map LargeObject.p) (size + 12) result.pointer
  nonzero : result ≠ .allocated 0

theorem Granted.newRegions {size : Nat} (granted : Granted area size) :
    Space.Answers area.space.answers area.space.largeRegions (size + 12) where
  answered := granted.answers.answered
  fresh := fun start rest answered =>
    (granted.answers.fresh start rest answered).imp_right fun fresh other member =>
      fresh other (List.mem_cons_of_mem _ member)

theorem allocated_of_malloc {space : Space} {size : Nat} {result : Space.Result}
    (placed : area.Placed area.space.largeRegions layout live) (granted : Granted area size)
    (run : area.space.gcMallocLarge size = some (space, result)) :
    Allocated area space live size result := by
  obtain ⟨attempt, nonzero⟩ :=
    Space.gcMallocLarge_attempt placed.sound granted.fits granted.newRegions run
  exact ⟨attempt, nonzero⟩

theorem allocated_of_resume {space : Space} {size : Nat} {result : Space.Result}
    (placed : area.Placed area.space.largeRegions layout live) (granted : Granted area size)
    (run : area.space.resumeLargeAllocate size = some (space, result)) :
    Allocated area space live size result := by
  obtain ⟨attempt, nonzero⟩ :=
    Space.resumeLargeAllocate_attempt placed.sound granted.fits granted.newRegions run
  exact ⟨attempt, nonzero⟩

section

variable {space : Space} {size : Nat} {result : Space.Result}
  (allocated : Allocated area space live size result)

include allocated

theorem Allocated.away
    (placed : area.Placed area.space.largeRegions layout live) (granted : Granted area size) :
    ∀ region ∈ space.largeRegions, region.Apart area.static := by
  intro region member
  rcases allocated.attempt.regions region member with old | ⟨start, rest, answered, rfl⟩
  · exact placed.away region old
  · exact (granted.answers.fresh start rest answered).2 area.static List.mem_cons_self

theorem Allocated.room
    (placed : area.Placed area.space.largeRegions layout live) (member : object ∈ live) :
    object.node + 16 ≤ object.p + Gc.size space.large.memory object.p := by
  rw [(allocated.attempt.untouched object.p (List.mem_map_of_mem member)).size]
  exact placed.room object member

theorem Allocated.failed (failed : result.pointer = 0)
    (placed : area.Placed area.space.largeRegions layout live) (granted : Granted area size) :
    ∃ layout', ({ area with space := space } : LargeArea).Placed space.largeRegions layout'
      live := by
  obtain ⟨layout', sound⟩ := allocated.attempt.sound
  rw [if_pos failed] at sound
  exact ⟨layout', sound, allocated.away placed granted, placed.table, placed.distinct,
    fun object member => allocated.room placed member⟩

end

theorem Allocated.served {space : Space} {size p : Nat}
    (allocated : Allocated area space live size (.allocated p))
    (placed : area.Placed area.space.largeRegions layout live) (granted : Granted area size) :
    ∃ layout', ({ area with space := space } : LargeArea).Placed space.largeRegions layout'
      (⟨p, size⟩ :: live) := by
  have found : p ≠ 0 := fun zero => allocated.nonzero (zero ▸ rfl)
  obtain ⟨layout', sound⟩ := allocated.attempt.sound
  obtain ⟨new, size_eq, _⟩ := allocated.attempt.new found
  have fits := granted.fits.allocate
  obtain ⟨_, atLeast, _⟩ := roundedSize_spec (fits : size + 12 + 27 < wordSize)
  change Sound ⟨_, _, if p = 0 then _ else _⟩ _ at sound
  rw [if_neg found] at sound
  refine ⟨layout', sound, allocated.away placed granted, placed.table, ?_, ?_⟩
  · intro object member other inLive same
    rcases List.mem_cons.mp member with rfl | member
    · rcases List.mem_cons.mp inLive with rfl | inLive
      · rfl
      · exact absurd (List.mem_map.mpr ⟨other, inLive, same.symm⟩) new
    · rcases List.mem_cons.mp inLive with rfl | inLive
      · exact absurd (List.mem_map.mpr ⟨object, member, same⟩) new
      · exact placed.distinct object member other inLive same
  · intro object member
    rcases List.mem_cons.mp member with rfl | member
    · have spec := LargeObject.node_spec ⟨p, size⟩
      change _ ≤ p + Gc.size space.large.memory p
      change Gc.size space.large.memory p = _ at size_eq
      dsimp only at spec
      omega
    · exact allocated.room placed member

theorem Allocated.linked {space : Space} {size : Nat} {result : Space.Result}
    {chain : Nat → List LargeObject} (allocated : Allocated area space live size result)
    (placed : area.Placed regions layout live) (linked : area.Linked live chain) :
    ({ area with space := space } : LargeArea).Linked live chain := by
  apply linked.kept (List.Subset.refl live) placed
  exact .of_untouched placed (List.Subset.refl live) rfl rfl
    fun object member => allocated.attempt.untouched object.p (List.mem_map_of_mem member)

theorem Allocated.contents {space : Space} {size : Nat} {result : Space.Result}
    (allocated : Allocated area space live size result)
    (placed : area.Placed regions layout live) (member : object ∈ live) {address : Nat}
    (low : object.p ≤ address) (high : address + 4 ≤ object.node) :
    space.large.memory address = area.memory address := by
  have room := placed.room object member
  exact (allocated.attempt.untouched object.p (List.mem_map_of_mem member)).payload address low
    (by unfold LargeArea.memory at room; omega)

/-- A new object is a new block. -/
theorem Represents.add (represents : heap.Represents blocks) {middle : LargeArea}
    {chain : Nat → List LargeObject}
    (placed : middle.Placed middle.space.largeRegions layout (object :: heap.objects))
    (linked : middle.Linked heap.objects chain) (new : object ∉ heap.objects)
    (clear : ∀ address, object.p ≤ address → address + 4 ≤ object.node →
      middle.memory address = 0)
    (contents : ∀ other ∈ heap.objects, ∀ address, other.p ≤ address →
      address + 4 ≤ other.node → middle.memory address = heap.area.memory address) :
    ∃ blocks', BlockHeap.Step blocks (.allocate object.p (.clear object.size)) blocks' ∧
      Represents ⟨middle.largeSetAdd object.p object.size, object :: heap.objects⟩ blocks' := by
  have member : object ∈ object :: heap.objects := List.mem_cons_self
  have subset : heap.objects ⊆ object :: heap.objects := List.subset_cons_self _ _
  have added := placed.largeSetAdd linked subset member
  have different {other : LargeObject} (inside : other ∈ heap.objects) : object.p ≠ other.p := by
    intro same
    obtain rfl := placed.distinct object member other (subset inside) same
    exact new inside
  have aligned {other : LargeObject} (inside : other ∈ object :: heap.objects) :=
    aligned_of_placed placed inside
  refine ⟨_, .allocate ?_ ?_, ⟨layout, ?_⟩, ⟨_, linked.largeSetAdd subset placed member new⟩,
    ?_, ?_⟩
  · by_contra some
    obtain ⟨block, here⟩ := Option.ne_none_iff_exists'.mp some
    obtain ⟨other, inside, same⟩ := represents.owned _ block here
    exact different inside same.symm
  · intro q block here
    obtain ⟨other, inside, rfl⟩ := represents.owned q block here
    obtain ⟨block', here', contains⟩ := represents.contents other inside
    obtain rfl := Option.some.inj (here.symm.trans here')
    have apart := placed.apart member (subset inside)
      fun same => different inside (congrArg LargeObject.p same)
    have room := placed.room object member
    have roomOther := placed.room other (subset inside)
    have spec := object.node_spec
    have specOther := other.node_spec
    rw [contains.size]
    change object.p + object.size ≤ other.p ∨ other.p + other.size ≤ object.p
    omega
  · have regions : (middle.largeSetAdd object.p object.size).space.largeRegions =
        middle.space.largeRegions := Space.largeRegions_congr added.spaceTable
    dsimp only
    rw [regions]
    exact added.placed
  · intro other inside
    rcases List.mem_cons.mp inside with rfl | inside
    · have cleared : Contains middle.memory other (.clear other.size) := by
        refine ⟨rfl, fun k below => byteAt_clear ?_⟩
        have spec := other.node_spec
        have aligned := aligned member
        exact clear _ (by omega) (by omega)
      exact ⟨_, Function.update_self _ _ _,
        cleared.congr (aligned member) (added.contents other member)⟩
    · obtain ⟨block, found, contains⟩ := represents.contents other inside
      refine ⟨block, ?_, contains.congr (aligned (subset inside)) ?_⟩
      · rw [Function.update_of_ne (different inside).symm]
        exact found
      · intro address low high
        exact (added.contents other (subset inside) address low high).trans
          (contents other inside address low high)
  · intro q block here
    by_cases same : q = object.p
    · exact ⟨object, member, same.symm⟩
    · rw [Function.update_of_ne same] at here
      obtain ⟨other, inside, equal⟩ := represents.owned q block here
      exact ⟨other, subset inside, equal⟩

theorem Represents.allocating (represents : heap.Represents blocks) {space : Space} {size : Nat}
    {result : Space.Result} (granted : Granted heap.area size)
    (allocated : Allocated heap.area space heap.objects size result) :
    ∃ blocks', BlockHeap.Step blocks
        (heap.allocating size (heap.area.addAllocated size (space, result))).1 blocks' ∧
      (heap.allocating size (heap.area.addAllocated size (space, result))).2.Represents
        blocks' := by
  obtain ⟨layout, placed⟩ := represents.placed
  obtain ⟨chain, linked⟩ := represents.linked
  have linked' := allocated.linked placed linked
  have contents : ∀ other ∈ heap.objects, ∀ address, other.p ≤ address →
      address + 4 ≤ other.node → space.large.memory address = heap.area.memory address :=
    fun _ inside _ low high => allocated.contents placed inside low high
  cases result with
  | allocated p =>
      have found : p ≠ 0 := fun zero => allocated.nonzero (zero ▸ rfl)
      obtain ⟨layout', placed'⟩ := allocated.served placed granted
      obtain ⟨absent, _, clear⟩ := allocated.attempt.new found
      obtain ⟨_, atLeast, _⟩ :=
        roundedSize_spec (granted.fits.allocate : size + 12 + 27 < wordSize)
      refine represents.add placed' linked'
        (fun inside => absent (List.mem_map_of_mem inside)) ?_ contents
      intro address low high
      have spec := LargeObject.node_spec ⟨p, size⟩
      apply clear address low
      unfold gcHead
      change address < p + (roundedSize (size + 12) - 4)
      dsimp only at spec
      omega
  | outOfMemory =>
      exact ⟨blocks, .idle, represents.idle rfl (allocated.failed rfl placed granted)
        ⟨chain, linked'⟩ contents⟩
  | collecting =>
      exact ⟨blocks, .idle, represents.idle rfl (allocated.failed rfl placed granted)
        ⟨chain, linked'⟩ contents⟩

/-! The other steps. -/

theorem away_of_write (placed : area.Placed regions layout live) (member : object ∈ live)
    {other : LargeObject} (inLive : other ∈ live) (different : object ≠ other) {address : Nat}
    (low : object.p ≤ address) (high : address + 4 ≤ object.p + object.size) :
    other.node + 16 ≤ address ∨ address + 4 ≤ other.p := by
  have apart := placed.apart member inLive different
  have room := placed.room object member
  have roomOther := placed.room other inLive
  have spec := object.node_spec
  omega

theorem kept_of_write (placed : area.Placed regions layout live) (member : object ∈ live)
    {address : Nat} (value : Nat) (low : object.p ≤ address)
    (high : address + 4 ≤ object.p + object.size) :
    area.Kept (area.store address value) live := by
  have room := placed.room object member
  have spec := object.node_spec
  obtain ⟨_, _, memory⟩ := placed.write member value low (by omega)
  obtain ⟨_, _, _, _, outside⟩ := placed.bounds member
  refine ⟨LargeArea.store_table _ _ _, ?_, ?_⟩
  · rw [LargeArea.store_outside (outside address (by omega) (by omega))]
  · intro other inLive word first last
    refine (congrFun memory word).trans (Memory.store_other _ _ ?_)
    rcases eq_or_ne object other with rfl | different
    · omega
    · have apart := away_of_write placed member inLive different low high
      have specOther := other.node_spec
      omega

/-- The program writes to an object. -/
theorem Represents.write (represents : heap.Represents blocks) (usable : object ∈ heap.objects)
    {address value : Nat} (low : object.p ≤ address)
    (high : address + 4 ≤ object.p + object.size) (aligned : address % 4 = 0) :
    ∃ blocks', BlockHeap.Step blocks
        (.write object.p (address - object.p) (wordBytes value)) blocks' ∧
      Represents { heap with area := heap.area.store address value } blocks' := by
  obtain ⟨layout, placed⟩ := represents.placed
  obtain ⟨chain, linked⟩ := represents.linked
  obtain ⟨block, found, contains⟩ := represents.contents object usable
  have room := placed.room object usable
  have spec := object.node_spec
  obtain ⟨placed', _, memory⟩ := placed.write usable value low (by omega)
  have kept := kept_of_write placed usable value low high
  refine ⟨_, .write found ?_, ⟨layout, ?_⟩,
    ⟨chain, linked.kept (List.Subset.refl _) placed kept⟩, ?_, ?_⟩
  · rw [contains.size, length_wordBytes]
    omega
  · have regions : (heap.area.store address value).space.largeRegions =
        heap.area.space.largeRegions :=
      Space.largeRegions_congr (LargeArea.store_spaceTable _ _ _)
    dsimp only
    rw [regions]
    exact placed'
  · intro other inside
    dsimp only
    rw [memory]
    rcases eq_or_ne object other with rfl | different
    · refine ⟨_, Function.update_self _ _ _, contains.size, fun k below => ?_⟩
      exact byteAt_store (aligned_of_placed placed usable) aligned low block (contains.bytes k below)
    · obtain ⟨block', found', contains'⟩ := represents.contents other inside
      refine ⟨block', ?_, contains'.congr (aligned_of_placed placed inside) ?_⟩
      · rw [Function.update_of_ne fun same =>
          different (placed.distinct other inside object usable same).symm]
        exact found'
      · intro word first last
        apply Memory.store_other
        have apart := away_of_write placed usable inside different low high
        have specOther := other.node_spec
        omega
  · intro q block' here
    by_cases same : q = object.p
    · exact ⟨object, usable, same.symm⟩
    · rw [Function.update_of_ne same] at here
      exact represents.owned q block' here

theorem Represents.mark (represents : heap.Represents blocks) (usable : object ∈ heap.objects) :
    Represents { heap with area := heap.area.mark object.p } blocks := by
  obtain ⟨layout, placed⟩ := represents.placed
  obtain ⟨chain, linked⟩ := represents.linked
  obtain ⟨after, kept, contents⟩ := placed.setHeader usable
    (maskSize_setFlag (heap.area.memory (header object.p)) .mark) (by simp)
  exact represents.idle rfl ⟨layout, after⟩
    ⟨chain, linked.kept (List.Subset.refl _) placed kept⟩ contents

/-- What `sweep_large` leaves. -/
theorem Represents.sweepLarge (represents : heap.Represents blocks) :
    ∃ after freed, heap.area.sweepLarge = some (after, freed) ∧
      (∀ p, p ∈ freed ↔ ∃ object ∈ heap.objects, object.p = p ∧ heap.area.marked p = false) ∧
      (∀ object ∈ heap.objects, heap.area.marked object.p = true →
        after.marked object.p = false) ∧
      Represents ⟨after, heap.objects.filter fun object => object.p ∉ freed⟩
        (blocks.restrict
          ((heap.objects.filter fun object => heap.area.marked object.p).map LargeObject.p)) := by
  obtain ⟨layout, placed⟩ := represents.placed
  obtain ⟨chain, linked⟩ := represents.linked
  obtain ⟨after, freed, sweeps, freed_iff, swept⟩ := LargeArea.sweepLarge_returns placed linked
  have left : heap.area.survivors heap.objects heap.objects =
      heap.objects.filter fun object => object.p ∉ freed := by
    apply List.filter_congr
    intro object member
    have outside : object.p ∈ freed ↔ heap.area.marked object.p = false := by
      rw [freed_iff]
      constructor
      · rintro ⟨_, _, _, unmarked⟩
        exact unmarked
      · exact fun unmarked => ⟨object, member, rfl, unmarked⟩
    simp [member, outside]
  have kept : (heap.objects.filter fun object => heap.area.marked object.p) =
      heap.objects.filter fun object => object.p ∉ freed := by
    rw [← left]
    apply List.filter_congr
    intro object member
    simp [member]
  refine ⟨after, freed, sweeps, freed_iff, ?_, represents.keep ?_ ?_ ?_ ?_ ?_⟩
  · intro object member marked
    have stays : object ∈ heap.area.survivors heap.objects heap.objects :=
      LargeArea.mem_survivors.mpr ⟨member, .inr marked⟩
    rw [swept.marked object stays]
    simp [member]
  · obtain ⟨layout', placed'⟩ := swept.placed
    dsimp only
    rw [Space.largeRegions_congr swept.spaceTable, ← left]
    exact ⟨layout', placed'⟩
  · dsimp only
    rw [← left]
    exact ⟨_, swept.linked⟩
  · exact List.filter_subset_self _
  · intro p block
    rw [BlockHeap.restrict_eq_some, kept, List.mem_map, and_comm]
  · dsimp only
    rw [← left]
    exact swept.contents

end LargeHeap

end LaTTe.Gc
