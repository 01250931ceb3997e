import LaTTe.Gc.Large.Objects

namespace LaTTe.Gc

open LaTTe.Data Manual

namespace LargeArea

/-! The table as `large_set_init` leaves it. -/

section

variable {area : LargeArea} {index other : Nat} {indices : List Nat}

theorem clear_sentinels (area : LargeArea) (index other : Nat) :
    Clear (area.sentinel index) (area.sentinel other) := by
  unfold Clear sentinel
  omega

theorem set_sentinel_space (below : index < largeSetSize) (field : NodeField) (value : Nat) :
    (area.set (area.sentinel index) field value).space = area.space := by
  have offset : field.offset ≤ 8 := by cases field <;> decide
  rw [LargeArea.set, store_inside (inTable_sentinel below (by omega) (by omega))]

def initial (area : LargeArea) (index : Nat) : NodeField → Nat
  | .object => 0
  | .prev => area.sentinel index
  | .next => area.sentinel index

theorem setSentinel_table (area : LargeArea) (index : Nat) :
    (area.setSentinel index).table = area.table := by
  simp [setSentinel]

theorem setSentinel_space (below : index < largeSetSize) :
    (area.setSentinel index).space = area.space := by
  have sentinel (before : LargeArea) (field : NodeField) (value : Nat)
      (same : before.table = area.table) :
      (before.set (area.sentinel index) field value).space = before.space := by
    rw [← sentinel_congr same]
    exact set_sentinel_space below field value
  unfold setSentinel
  rw [sentinel _ _ _ (by simp), sentinel _ _ _ (by simp), sentinel _ _ _ rfl]

theorem get_setSentinel (area : LargeArea) (index other : Nat) (field : NodeField) :
    (area.setSentinel index).get (area.sentinel other) field =
      if other = index then area.initial index field
      else area.get (area.sentinel other) field := by
  have clear := clear_sentinels area index other
  have same : area.sentinel other = area.sentinel index ↔ other = index := by
    unfold sentinel
    omega
  rw [setSentinel, get_set clear, get_set clear, get_set clear]
  simp only [same]
  by_cases equal : other = index
  · cases field <;> simp [equal, initial]
  · simp [equal]

theorem foldl_setSentinel (below : ∀ index ∈ indices, index < largeSetSize) :
    (indices.foldl setSentinel area).table = area.table ∧
      (indices.foldl setSentinel area).space = area.space ∧
      ∀ other field, (indices.foldl setSentinel area).get (area.sentinel other) field =
        if other ∈ indices then area.initial other field
        else area.get (area.sentinel other) field := by
  induction indices generalizing area with
  | nil => simp
  | cons index rest ih =>
      have inRange := below index List.mem_cons_self
      have table := setSentinel_table area index
      obtain ⟨sameTable, sameSpace, gets⟩ := @ih (area.setSentinel index)
        fun other member => below other (List.mem_cons_of_mem _ member)
      refine ⟨sameTable.trans table, sameSpace.trans (setSentinel_space inRange), ?_⟩
      intro other field
      have initial : (area.setSentinel index).initial other field = area.initial other field := by
        cases field <;> simp [LargeArea.initial, sentinel_congr table]
      have get := gets other field
      rw [sentinel_congr table, initial, get_setSentinel] at get
      rw [List.foldl_cons, get]
      by_cases inRest : other ∈ rest
      · simp [inRest]
      · by_cases same : other = index
        · simp [same]
        · simp [inRest, same]

theorem largeSetInit_table (area : LargeArea) : area.largeSetInit.table = area.table :=
  (foldl_setSentinel fun _ => List.mem_range.mp).1

theorem largeSetInit_space (area : LargeArea) : area.largeSetInit.space = area.space :=
  (foldl_setSentinel fun _ => List.mem_range.mp).2.1

theorem get_largeSetInit (area : LargeArea) (below : index < largeSetSize) (field : NodeField) :
    area.largeSetInit.get (area.sentinel index) field = area.initial index field :=
  ((foldl_setSentinel fun _ => List.mem_range.mp).2.2 index field).trans
    (if_pos (List.mem_range.mpr below))

theorem linked_largeSetInit (area : LargeArea) : Linked area.largeSetInit [] fun _ => [] where
  ring := by
    intro index below
    rw [sentinel_congr area.largeSetInit_table]
    exact .empty (get_largeSetInit area below .next) (get_largeSetInit area below .prev)
  ends := by
    intro index below
    rw [sentinel_congr area.largeSetInit_table]
    exact get_largeSetInit area below .object
  named := by simp
  members := by simp

end

end LargeArea

namespace LargeHeap

variable {start heap next : LargeHeap} {blocks : BlockHeap}

theorem represents_nil {area : LargeArea} {memory : Memory} (table : 0 < area.table)
    (large : area.space.large = memInit memory) (regions : area.space.largeRegions = [])
    (linked : area.Linked [] fun _ => []) : Represents ⟨area, []⟩ fun _ => none where
  placed := by
    refine ⟨fun _ => [], ?_, ?_, table, ?_, ?_⟩
    · dsimp only
      rw [large, regions]
      exact empty_sound memory
    · dsimp only
      rw [regions]
      simp
    · simp
    · simp
  linked := ⟨_, linked⟩
  contents := by
    intro object member
    cases member
  owned := by
    intro p block found
    cases found

theorem Initial.represents (initial : Initial start) : start.Represents fun _ => none := by
  obtain ⟨area, memory, table, large, regions⟩ := initial
  have linked := area.linked_largeSetInit
  have space := area.largeSetInit_space
  rw [← area.largeSetInit_table] at table
  rw [← space] at large regions
  exact represents_nil table large regions linked

theorem Represents.step {action : BlockHeap.Action} (represents : heap.Represents blocks)
    (step : heap.Step action next) :
    ∃ blocks', BlockHeap.Step blocks action blocks' ∧ next.Represents blocks' := by
  obtain ⟨layout, placed⟩ := represents.placed
  cases step with
  | malloc granted returns =>
      obtain ⟨⟨space, result⟩, run, rfl⟩ := Option.map_eq_some_iff.mp returns
      exact represents.allocating granted (allocated_of_malloc placed granted run)
  | resume granted returns =>
      obtain ⟨⟨space, result⟩, run, rfl⟩ := Option.map_eq_some_iff.mp returns
      exact represents.allocating granted (allocated_of_resume placed granted run)
  | write usable low high aligned => exact represents.write usable low high aligned
  | mark usable => exact ⟨blocks, .idle, represents.mark usable⟩
  | sweep sweeps =>
      obtain ⟨after, freed, sweeps', _, _, kept⟩ := represents.sweepLarge
      obtain ⟨rfl, rfl⟩ := Prod.mk.inj (Option.some.inj (sweeps.symm.trans sweeps'))
      exact ⟨_, .keep, kept⟩
  | @elsewhere space large regions =>
      obtain ⟨chain, linked⟩ := represents.linked
      have memory : ({ heap.area with space := space } : LargeArea).memory = heap.area.memory :=
        congrArg GcHeap.memory large
      refine ⟨blocks, .idle, represents.idle rfl ⟨layout, ?_, ?_, placed.table, placed.distinct, ?_⟩
        ⟨chain, linked.kept (List.Subset.refl _) placed ⟨rfl, rfl, ?_⟩⟩ ?_⟩
      · dsimp only
        rw [large, regions]
        exact placed.sound
      · dsimp only
        rw [regions]
        exact placed.away
      · intro object member
        rw [memory]
        exact placed.room object member
      · exact fun _ _ address _ _ => congrFun memory address
      · exact fun _ _ address _ _ => congrFun memory address

/-- Whatever is allocated, written, marked and swept, in any order: the area gives the program
blocks of memory that have nothing in common, each clear at first and with its contents until it
is swept.  The set holds exactly these blocks, and `sweep_large` would free those without a mark
and leave the others without one. -/
theorem large_area_refines_blocks {actions : List BlockHeap.Action} (initial : Initial start)
    (run : Behaviour Step start actions heap) :
    ∃ blocks, Behaviour BlockHeap.Step (fun _ => none) actions blocks ∧
      heap.Represents blocks ∧ blocks.Separate ∧
      (∀ p, heap.area.largeSetExists p = some (blocks p).isSome) ∧
      ∃ after freed, heap.area.sweepLarge = some (after, freed) ∧
        (∀ p, p ∈ freed ↔ (blocks p).isSome ∧ heap.area.marked p = false) ∧
        ∀ p, (blocks p).isSome → heap.area.marked p = true → after.marked p = false := by
  obtain ⟨blocks, abstract, represents⟩ := run.simulates
    (fun _ _ _ _ represents step => represents.step step) initial.represents
  have held (p : Nat) : (blocks p).isSome ↔ ∃ object ∈ heap.objects, object.p = p := by
    constructor
    · intro some
      obtain ⟨block, found⟩ := Option.isSome_iff_exists.mp some
      exact represents.owned p block found
    · rintro ⟨object, member, rfl⟩
      obtain ⟨block, found, _⟩ := represents.contents object member
      exact Option.isSome_iff_exists.mpr ⟨block, found⟩
  obtain ⟨after, freed, sweeps, freed_iff, cleared, _⟩ := represents.sweepLarge
  refine ⟨blocks, abstract, represents, BlockHeap.separate_run abstract, ?_, after, freed, sweeps,
    ?_, ?_⟩
  · intro p
    obtain ⟨layout, placed⟩ := represents.placed
    obtain ⟨chain, linked⟩ := represents.linked
    rw [linked.largeSetExists (List.Subset.refl _) placed, Option.some.injEq]
    rw [Bool.eq_iff_iff, decide_eq_true_eq, held, List.mem_map]
  · intro p
    rw [freed_iff, held]
    constructor
    · rintro ⟨object, member, same, unmarked⟩
      exact ⟨⟨object, member, same⟩, unmarked⟩
    · rintro ⟨⟨object, member, same⟩, unmarked⟩
      exact ⟨object, member, same, unmarked⟩
  · intro p some marked
    obtain ⟨object, member, rfl⟩ := (held p).mp some
    exact cleared object member marked

private def emptyArea : LargeArea where
  space :=
    { limit := 2 ^ 30
      heapSize := 2 ^ 23
      table := []
      fixed := memInit fun _ => 0
      large := memInit fun _ => 0
      area := ⟨fun _ => 0, [], 0, 0, 0, 0⟩
      smallSize := 0
      tablePos := 0
      answers := [some 16777216] }
  table := 4096
  objects := fun _ => 0

private theorem emptyArea_granted : Granted emptyArea.largeSetInit 5000 where
  fits := by decide
  answers := by
    rw [emptyArea.largeSetInit_space]
    refine ⟨⟨some 16777216, [], rfl⟩, fun start rest answered => ?_⟩
    obtain ⟨rfl, rfl⟩ : 16777216 = start ∧ [] = rest := by
      have same := Option.some.inj answered
      exact ⟨Option.some.inj (congrArg Prod.fst same), congrArg Prod.snd same⟩
    refine ⟨by decide, fun other member => ?_⟩
    obtain rfl := List.mem_singleton.mp member
    right
    rw [LargeArea.static, LargeArea.largeSetInit_table]
    decide

private theorem marked_mark (area : LargeArea) (p : Nat) : (area.mark p).marked p = true := by
  have stored : (area.mark p).memory (header p) = setFlag (area.memory (header p)) .mark :=
    Memory.store_same _ _ _
  rw [LargeArea.marked, stored, hasFlag_setFlag]
  exact Bool.or_true _

/-- An object is allocated and written.  It is marked and outlives a sweep, and the next one
frees it. -/
theorem large_area_refines_blocks_first : ∃ heap next,
    Behaviour Step ⟨emptyArea.largeSetInit, []⟩
      [.allocate 16777232 (.clear 5000), .write 16777232 8 (wordBytes 7), .idle,
        .keep [16777232]] heap ∧
      heap.area.largeSetExists 16777232 = some true ∧
      Step heap (.keep []) next ∧ next.area.largeSetExists 16777232 = some false := by
  have returned : (emptyArea.space.gcMallocLarge 5000).map (·.2) =
      some (.allocated 16777232) := by decide +kernel
  obtain ⟨⟨space, result⟩, mallocs, rfl⟩ := Option.map_eq_some_iff.mp returned
  rw [← emptyArea.largeSetInit_space] at mallocs
  have granted := emptyArea_granted
  have large : emptyArea.space.large = memInit fun _ => 0 := rfl
  have regions : emptyArea.space.largeRegions = [] := rfl
  have initial := Initial.init emptyArea _ (by decide) large regions
  generalize emptyArea.largeSetInit = area at *
  have allocates : area.gcMallocLarge 5000 =
      some (area.addAllocated 5000 (space, .allocated 16777232)) := by
    rw [LargeArea.gcMallocLarge, mallocs]
    rfl
  have allocated : Step ⟨area, []⟩ _ _ := .malloc granted allocates
  have first := Behaviour.start.step allocated
  have second := first.step
    (@Step.write _ ⟨16777232, 5000⟩ 16777240 7 List.mem_cons_self (by decide) (by decide)
      (by decide))
  have third := second.step (.mark List.mem_cons_self)
  generalize marks : LargeArea.mark _ _ = marked at third
  have survives : marked.marked 16777232 = true := marks ▸ marked_mark _ _
  obtain ⟨blocks, _, represents, _, _, after, freed, sweeps, freed_iff, cleared⟩ :=
    large_area_refines_blocks initial third
  obtain ⟨block, found, _⟩ := represents.contents ⟨16777232, 5000⟩ List.mem_cons_self
  have kept : 16777232 ∉ freed := by
    rw [freed_iff, survives]
    exact fun both => Bool.false_ne_true both.2.symm
  have unmarked := cleared 16777232 (Option.isSome_iff_exists.mpr ⟨block, found⟩) survives
  have sweep : Step ⟨marked, [⟨16777232, 5000⟩]⟩ (.keep [16777232])
      ⟨after, [⟨16777232, 5000⟩]⟩ := by
    have step : Step ⟨marked, [⟨16777232, 5000⟩]⟩ _ _ := .sweep sweeps
    simpa [survives, kept] using step
  have fourth := third.step sweep
  obtain ⟨blocks', _, represents', _, exists_iff, after', freed', sweeps', freed_iff', _⟩ :=
    large_area_refines_blocks initial fourth
  obtain ⟨block', found', _⟩ := represents'.contents ⟨16777232, 5000⟩ List.mem_cons_self
  have some' : (blocks' 16777232).isSome := Option.isSome_iff_exists.mpr ⟨block', found'⟩
  have gone : 16777232 ∈ freed' := (freed_iff' 16777232).mpr ⟨some', unmarked⟩
  have sweep' : Step ⟨after, [⟨16777232, 5000⟩]⟩ (.keep []) ⟨after', []⟩ := by
    have step : Step ⟨after, [⟨16777232, 5000⟩]⟩ _ _ := .sweep sweeps'
    simpa [unmarked, gone] using step
  refine ⟨_, _, fourth, (exists_iff _).trans (congrArg some some'), sweep', ?_⟩
  obtain ⟨blocks'', _, represents'', _, exists_iff', _⟩ :=
    large_area_refines_blocks initial (fourth.step sweep')
  cases none' : blocks'' 16777232 with
  | none => rw [exists_iff', none', Option.isSome_none]
  | some block'' =>
      obtain ⟨_, absurd, _⟩ := represents''.owned _ _ none'
      cases absurd

end LargeHeap

end LaTTe.Gc
