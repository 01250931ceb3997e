import LaTTe.Data.BlockHeap
import LaTTe.Gc.Small.Collection

namespace LaTTe.Gc

open LaTTe.Data

/-! What the small object area is to the program: objects with contents of their own. -/

structure SmallHeap where
  area : Small
  live : List Nat

namespace SmallHeap

def payload (heap : SmallHeap) (head : Nat) : Nat :=
  headerSize heap.area.memory head - gcHead

def allocating (heap : SmallHeap) (size : Nat) : Small.Outcome → BlockHeap.Action × SmallHeap
  | .allocated p after => (.allocate p (.clear (size - gcHead)), ⟨after, header p :: heap.live⟩)
  | .outOfMemory after => (.idle, ⟨after, heap.live⟩)
  | .collecting after => (.idle, ⟨after, heap.live⟩)

/-- The assertions of `gc_malloc_small`. -/
def Requested (size : Nat) : Prop :=
  0 < size ∧ size % memAlign = 0 ∧ size < gcMaxSmallObjectSize

inductive Step : SmallHeap → BlockHeap.Action → SmallHeap → Prop where
  | malloc {heap : SmallHeap} {size : Nat} {room : Bool} {grant : Small.Grant}
      (requested : Requested size) (granted : grant.Ok heap.area.regions) :
      Step heap (heap.allocating size (heap.area.gcMallocSmall size room grant)).1
        (heap.allocating size (heap.area.gcMallocSmall size room grant)).2
  | resume {heap : SmallHeap} {size : Nat} {grant : Small.Grant}
      (requested : Requested size) (granted : grant.Ok heap.area.regions) :
      Step heap (heap.allocating size (heap.area.resumeSmallAllocate size grant)).1
        (heap.allocating size (heap.area.resumeSmallAllocate size grant)).2
  | write {heap : SmallHeap} {head offset value : Nat} (usable : head ∈ heap.live)
      (inside : offset < heap.payload head) :
      Step heap (.write (head + gcHead) offset [value])
        { heap with
          area := { heap.area with
            memory := heap.area.memory.store (head + gcHead + offset) value } }
  | collect {heap : SmallHeap} {marked : List Nat} {sweeping : Small.Sweeping} {after : Small}
      (objects : ∀ head ∈ marked, head ∈ heap.live) (lists : sweeping.Lists marked)
      (collects : heap.area.collect marked sweeping = some after) :
      Step heap (.keep (marked.map (· + gcHead)))
        ⟨after, heap.live.filter (· ∈ marked)⟩

structure Represents (heap : SmallHeap) (blocks : BlockHeap) : Prop where
  divided : ∃ owners, Divided heap.area heap.live owners
  objects : ∀ p, (∃ block, blocks p = some block) ↔ ∃ head ∈ heap.live, p = head + gcHead
  sizes : ∀ head block, blocks (head + gcHead) = some block → block.size = heap.payload head
  contents : ∀ head block, blocks (head + gcHead) = some block → ∀ offset < block.size,
    heap.area.memory (head + gcHead + offset) = block.contents offset

variable {heap : SmallHeap} {blocks : BlockHeap}

theorem Represents.large (represents : heap.Represents blocks) {head : Nat}
    (member : head ∈ heap.live) : 8 ≤ headerSize heap.area.memory head := by
  obtain ⟨owners, divided⟩ := represents.divided
  rw [divided.live_size member]
  exact (divided.piece_large (divided.object head member).1).1

theorem Represents.size_intact (represents : heap.Represents blocks) {head : Nat}
    {memory : Memory} {live : List Nat} (intact : Intact heap.area.memory memory live)
    (usable : head ∈ heap.live) (member : head ∈ live) :
    headerSize memory head = headerSize heap.area.memory head := by
  have large := represents.large usable
  rw [headerSize, headerSize, intact head member head (Nat.le_refl _) (by omega)]

theorem Represents.block (represents : heap.Represents blocks) {p : Nat} {block : Block}
    (found : blocks p = some block) :
    ∃ head ∈ heap.live, p = head + gcHead ∧ block.size = heap.payload head := by
  obtain ⟨head, member, rfl⟩ := (represents.objects p).mp ⟨block, found⟩
  exact ⟨head, member, rfl, represents.sizes head block found⟩

theorem Represents.kept (represents : heap.Represents blocks) {after : Small} {live : List Nat}
    {owners : Owners} (divided : Divided after live owners)
    (fewer : ∀ head ∈ live, head ∈ heap.live) (intact : Intact heap.area.memory after.memory live)
    {blocks' : BlockHeap}
    (restricted : blocks' = blocks.restrict (live.map (· + gcHead))) :
    Represents ⟨after, live⟩ blocks' := by
  have found_iff (head : Nat) (block : Block) : blocks' (head + gcHead) = some block ↔
      head ∈ live ∧ blocks (head + gcHead) = some block := by
    simp [restricted]
  refine ⟨⟨owners, divided⟩, ?_, ?_, ?_⟩
  · intro p
    constructor
    · rintro ⟨block, here⟩
      rw [restricted] at here
      obtain ⟨member, _⟩ := BlockHeap.restrict_eq_some.mp here
      obtain ⟨head, inLive, rfl⟩ := List.mem_map.mp member
      exact ⟨head, inLive, rfl⟩
    · rintro ⟨head, member, rfl⟩
      obtain ⟨block, here⟩ := (represents.objects _).mpr ⟨head, fewer head member, rfl⟩
      exact ⟨block, (found_iff head block).mpr ⟨member, here⟩⟩
  · intro head block here
    obtain ⟨member, here⟩ := (found_iff head block).mp here
    rw [represents.sizes head block here, payload, payload,
      represents.size_intact intact (fewer head member) member]
  · intro head block here offset inside
    obtain ⟨member, here⟩ := (found_iff head block).mp here
    have sizes := represents.sizes head block here
    rw [← represents.contents head block here offset inside]
    apply intact head member
    · omega
    · unfold payload at sizes
      omega

/-! New objects. -/

def Cleared (size : Nat) (outcome : Small.Outcome) : Prop :=
  ∀ p after, outcome = .allocated p after →
    gcHead ≤ p ∧ ∀ offset < size - gcHead, after.memory (p + offset) = 0

theorem cleared_finish (area : Small) (tmp size : Nat) : Cleared size (area.finish tmp size) := by
  intro p after same
  obtain ⟨rfl, rfl⟩ := Small.Outcome.allocated.inj same
  refine ⟨Nat.le_add_left _ _, fun offset inside => ?_⟩
  have positive : 0 < gcHead := by decide
  dsimp only
  rw [Memory.store_other _ _ (by omega), Small.zero, if_pos (by omega)]

theorem cleared_expandAndAllocate (area : Small) (size : Nat) (grant : Small.Grant) :
    Cleared size (area.expandAndAllocate size grant) := by
  unfold Small.expandAndAllocate
  split
  · rintro p after ⟨⟩
  · split
    · rintro p after ⟨⟩
    · exact cleared_finish _ _ _

theorem cleared_resumeSmallAllocate (area : Small) (size : Nat) (grant : Small.Grant) :
    Cleared size (area.resumeSmallAllocate size grant) := by
  unfold Small.resumeSmallAllocate
  dsimp only
  split
  · exact cleared_finish _ _ _
  · exact cleared_expandAndAllocate _ _ _

theorem cleared_gcMallocSmall (area : Small) (size : Nat) (room : Bool) (grant : Small.Grant) :
    Cleared size (area.gcMallocSmall size room grant) := by
  unfold Small.gcMallocSmall
  split
  · unfold Small.slowSmallAllocate
    dsimp only
    split
    · exact cleared_finish _ _ _
    · split
      · exact cleared_expandAndAllocate _ _ _
      · rintro p after ⟨⟩
  · exact cleared_finish _ _ _

theorem Represents.idle (represents : heap.Represents blocks) {after : Small}
    (divided : ∃ owners, Divided after heap.live owners)
    (intact : Intact heap.area.memory after.memory heap.live) :
    Represents ⟨after, heap.live⟩ blocks := by
  obtain ⟨owners, divided⟩ := divided
  apply represents.kept divided (fun _ member => member) intact
  funext p
  unfold BlockHeap.restrict
  split
  · rfl
  · rename_i absent
    by_contra found
    obtain ⟨block, found⟩ := Option.ne_none_iff_exists'.mp found
    obtain ⟨head, member, same, _⟩ := represents.block found
    exact absent (List.mem_map.mpr ⟨head, member, same.symm⟩)

/-- An allocation gives the program a new block, if it gives anything. -/
theorem Represents.allocating (represents : heap.Represents blocks) {size : Nat}
    (large : gcHead ≤ size) {outcome : Small.Outcome} (cleared : Cleared size outcome)
    (keeps : outcome.Keeps heap.area heap.live size) :
    ∃ blocks', BlockHeap.Step blocks (heap.allocating size outcome).1 blocks' ∧
      (heap.allocating size outcome).2.Represents blocks' := by
  cases outcome with
  | outOfMemory after => exact ⟨blocks, .idle, represents.idle keeps.1 keeps.2⟩
  | collecting after => exact ⟨blocks, .idle, represents.idle keeps.1 keeps.2⟩
  | allocated p after =>
      obtain ⟨⟨owners, divided⟩, intact, size_eq⟩ := keeps
      obtain ⟨behind, zero⟩ := cleared p after rfl
      obtain ⟨new, distinct⟩ := List.nodup_cons.mp divided.liveDistinct
      have position : header p + gcHead = p := Nat.sub_add_cancel behind
      have fresh : blocks p = none := by
        by_contra found
        obtain ⟨block, found⟩ := Option.ne_none_iff_exists'.mp found
        obtain ⟨head, member, same, _⟩ := represents.block found
        rw [← position] at same
        exact new (Nat.add_right_cancel same ▸ member)
      have size_live (head : Nat) (member : head ∈ heap.live) :
          after.pieceSize head = headerSize heap.area.memory head := by
        rw [← divided.live_size (List.mem_cons_of_mem _ member),
          represents.size_intact intact member member]
      have unoccupied : blocks.Unoccupied p (size - gcHead) := by
        intro q block found
        obtain ⟨head, member, rfl, size_block⟩ := represents.block found
        have apart := divided.pieces_apart (divided.object _ List.mem_cons_self).1
          (divided.object head (List.mem_cons_of_mem _ member)).1 fun same => new (same ▸ member)
        rw [← divided.live_size List.mem_cons_self, size_eq, size_live head member] at apart
        unfold payload at size_block
        omega
      refine ⟨_, .allocate fresh unoccupied, ⟨owners, divided⟩, ?_, ?_, ?_⟩
      · intro q
        by_cases same : q = p
        · subst same
          exact iff_of_true ⟨_, Function.update_self _ _ _⟩
            ⟨header q, List.mem_cons_self, position.symm⟩
        · rw [Function.update_of_ne same, represents.objects q]
          constructor
          · rintro ⟨head, member, rfl⟩
            exact ⟨head, List.mem_cons_of_mem _ member, rfl⟩
          · rintro ⟨head, member, rfl⟩
            rcases List.mem_cons.mp member with rfl | member
            · exact absurd position same
            · exact ⟨head, member, rfl⟩
      · intro head block found
        by_cases same : head + gcHead = p
        · rw [same, Function.update_self, Option.some.injEq] at found
          rw [← found, payload, ← size_eq, ← same, header_add]
          rfl
        · rw [Function.update_of_ne same] at found
          obtain ⟨_, member, equal, size_block⟩ := represents.block found
          obtain rfl := Nat.add_right_cancel equal
          rw [size_block, payload, ← represents.size_intact intact member member]
          rfl
      · intro head block found offset inside
        by_cases same : head + gcHead = p
        · rw [same, Function.update_self, Option.some.injEq] at found
          subst found
          rw [same]
          exact zero offset inside
        · rw [Function.update_of_ne same] at found
          obtain ⟨_, member, equal, size_block⟩ := represents.block found
          obtain rfl := Nat.add_right_cancel equal
          rw [← represents.contents head block found offset inside]
          apply intact head member
          · omega
          · unfold payload at size_block
            omega

theorem Represents.collected (represents : heap.Represents blocks) {marked : List Nat}
    {sweeping : Small.Sweeping} {after : Small} (objects : ∀ head ∈ marked, head ∈ heap.live)
    (lists : sweeping.Lists marked) (collects : heap.area.collect marked sweeping = some after) :
    Represents ⟨after, heap.live.filter (· ∈ marked)⟩
      (blocks.restrict (marked.map (· + gcHead))) := by
  obtain ⟨owners, divided⟩ := represents.divided
  obtain ⟨swept, owners', run, divided', intact⟩ := divided.collect objects lists
  obtain rfl := Option.some.inj (run.symm.trans collects)
  apply represents.kept divided' (fun head member => (List.mem_filter.mp member).1) intact
  funext p
  have same : p ∈ marked.map (· + gcHead) ↔
      p ∈ (heap.live.filter (· ∈ marked)).map (· + gcHead) := by
    simp only [List.mem_map, List.mem_filter, decide_eq_true_eq]
    constructor
    · rintro ⟨head, isMarked, rfl⟩
      exact ⟨head, ⟨objects head isMarked, isMarked⟩, rfl⟩
    · rintro ⟨head, ⟨_, isMarked⟩, rfl⟩
      exact ⟨head, isMarked, rfl⟩
  simp only [BlockHeap.restrict, same]

/-- The program writes to the contents of its objects. -/
theorem Represents.written (represents : heap.Represents blocks) {head offset value : Nat}
    {block : Block} (found : blocks (head + gcHead) = some block) (inside : offset < block.size) :
    Represents { heap with
        area := { heap.area with
          memory := heap.area.memory.store (head + gcHead + offset) value } }
      (Function.update blocks (head + gcHead) (some (block.write offset [value]))) := by
  obtain ⟨_, usable, equal, size_block⟩ := represents.block found
  obtain rfl := Nat.add_right_cancel equal
  obtain ⟨owners, divided⟩ := represents.divided
  have object := divided.object head usable
  have headSize := divided.live_size usable
  have room : head + gcHead + offset < head + heap.area.pieceSize head := by
    unfold payload at size_block
    omega
  have positive : 0 < gcHead := by decide
  -- no chunk is an object
  have notChunk : ∀ chunk ∈ owners.chunks, chunk.1 ≠ head := by
    intro chunk member same
    have word := (divided.chunk chunk member).1
    have used := (divided.header head object.1 object.2).2.mpr usable
    rw [← same, word, hasFlag_setFlag] at used
    simp at used
  -- the other objects do not reach to where is written
  have away : ∀ other ∈ heap.live, ∀ address, other ≤ address →
      address < other + headerSize heap.area.memory other →
      other ≠ head ∨ address < head + gcHead →
      heap.area.memory.store (head + gcHead + offset) value address =
        heap.area.memory address := by
    intro other member address above below apart
    apply Memory.store_other
    rcases apart with different | before
    · have otherObject := divided.object other member
      have apart := divided.pieces_apart object.1 otherObject.1 (Ne.symm different)
      rw [divided.live_size member] at below
      omega
    · omega
  have size (other : Nat) (member : other ∈ heap.live) :
      headerSize (heap.area.memory.store (head + gcHead + offset) value) other =
        headerSize heap.area.memory other := by
    have large := represents.large member
    rw [headerSize, headerSize, away other member other (Nat.le_refl _) (by omega)]
    by_cases same : other = head
    · exact .inr (by omega)
    · exact .inl same
  refine ⟨⟨owners, divided.frame_piece object.1 notChunk ?_ ?_⟩, ?_, ?_, ?_⟩
  · intro address outside
    exact Memory.store_other _ _ (by omega)
  · exact fun _ => Memory.store_other _ _ (by omega)
  · intro p
    by_cases same : p = head + gcHead
    · subst same
      exact iff_of_true ⟨_, Function.update_self _ _ _⟩ ⟨head, usable, rfl⟩
    · rw [Function.update_of_ne same]
      exact represents.objects p
  · intro other found' here
    by_cases same : other = head
    · subst same
      rw [Function.update_self, Option.some.injEq] at here
      rw [← here, payload, size other usable]
      exact size_block
    · rw [Function.update_of_ne (fun equal => same (Nat.add_right_cancel equal))] at here
      obtain ⟨_, member, equal, size_other⟩ := represents.block here
      obtain rfl := Nat.add_right_cancel equal
      rw [size_other, payload, payload, size other member]
  · intro other found' here index below
    by_cases same : other = head
    · subst same
      rw [Function.update_self, Option.some.injEq] at here
      subst here
      dsimp only
      by_cases written : index = offset
      · subst written
        rw [Memory.store_same, Block.write_inside _ (Nat.le_refl _) (by simp)]
        simp
      · have beside : index < offset ∨ offset + [value].length ≤ index := by
          simp only [List.length_singleton]
          omega
        rw [Memory.store_other _ _ (by omega), Block.write_outside _ beside]
        exact represents.contents other block found index below
    · rw [Function.update_of_ne (fun equal => same (Nat.add_right_cancel equal))] at here
      obtain ⟨_, member, equal, size_other⟩ := represents.block here
      obtain rfl := Nat.add_right_cancel equal
      rw [← represents.contents other found' here index below]
      apply away other member _ (by omega) ?_ (.inl same)
      unfold payload at size_other
      omega

theorem simulated {heap next : SmallHeap} {blocks : BlockHeap} {action : BlockHeap.Action}
    (represents : heap.Represents blocks) (step : Step heap action next) :
    ∃ blocks', BlockHeap.Step blocks action blocks' ∧ next.Represents blocks' := by
  cases step with
  | @malloc size room grant requested granted =>
      obtain ⟨owners, divided⟩ := represents.divided
      apply represents.allocating _ (cleared_gcMallocSmall _ _ _ _)
      · exact divided.gcMallocSmall requested.1 requested.2.1 requested.2.2 room granted
      · have := requested.2.1
        have := requested.1
        unfold memAlign gcHead at *
        omega
  | @resume size grant requested granted =>
      obtain ⟨owners, divided⟩ := represents.divided
      apply represents.allocating _ (cleared_resumeSmallAllocate _ _ _)
      · exact divided.resumeSmallAllocate requested.1 requested.2.1 requested.2.2 granted
      · have := requested.2.1
        have := requested.1
        unfold memAlign gcHead at *
        omega
  | @write head offset value usable inside =>
      obtain ⟨block, found⟩ := (represents.objects _).mpr ⟨head, usable, rfl⟩
      rw [← represents.sizes head block found] at inside
      exact ⟨_, .write found inside, represents.written found inside⟩
  | @collect marked sweeping after objects lists collects =>
      exact ⟨_, .keep, represents.collected objects lists collects⟩

def unused (memory : Memory) : SmallHeap :=
  ⟨.unused memory, []⟩

theorem represents_unused (memory : Memory) : (unused memory).Represents fun _ => none where
  divided := ⟨_, .unused memory⟩
  objects := by simp [unused]
  sizes := by simp
  contents := by simp

/-- Whatever is allocated, written and collected, in any order: the area gives the program
blocks of memory that have nothing in common, new ones are clear, each keeps what the program
writes to it for as long as collections mark it, and collections always come to an end. -/
theorem small_area_refines_blocks {memory : Memory} {actions : List BlockHeap.Action}
    {heap : SmallHeap} (run : Behaviour Step (unused memory) actions heap) :
    ∃ blocks, Behaviour BlockHeap.Step (fun _ => none) actions blocks ∧
      heap.Represents blocks ∧ blocks.Separate ∧
      ∀ marked sweeping, (∀ head ∈ marked, head ∈ heap.live) → sweeping.Lists marked →
        ∃ after, heap.area.collect marked sweeping = some after := by
  have each : ∀ state other label next, Represents state other → Step state label next →
      ∃ next', BlockHeap.Step other label next' ∧ Represents next next' :=
    fun _ _ _ _ represents step => simulated represents step
  obtain ⟨blocks, abstract, represents⟩ := run.simulates each (represents_unused memory)
  refine ⟨blocks, abstract, represents, BlockHeap.separate_run abstract, ?_⟩
  intro marked sweeping objects lists
  obtain ⟨owners, divided⟩ := represents.divided
  obtain ⟨after, _, collects, _⟩ := divided.collect objects lists
  exact ⟨after, collects⟩

def firstKept : List BlockHeap.Action :=
  [.allocate 4194312 (.clear 12), .allocate 4194328 (.clear 20), .write 4194312 0 [7],
    .keep [4194312]]

theorem small_area_refines_blocks_first :
    ∃ heap blocks, Behaviour Step (unused fun _ => 0) firstKept heap ∧
      heap.live = [4194308] ∧ Behaviour BlockHeap.Step (fun _ => none) firstKept blocks ∧
      heap.Represents blocks ∧ blocks.Separate ∧
      ∀ marked sweeping, (∀ head ∈ marked, head ∈ heap.live) → sweeping.Lists marked →
        ∃ after, heap.area.collect marked sweeping = some after := by
  have granted : (Small.Grant.region 4194304 fun _ => 0).Ok (unused fun _ => 0).area.regions :=
    ⟨by decide, by decide, by decide, by simp [unused, Small.unused]⟩
  have first : Behaviour Step (unused fun _ => 0) [.allocate 4194312 (.clear 12)] _ :=
    Behaviour.start.step (@Step.malloc _ 16 true _ ⟨by decide, by decide, by decide⟩ granted)
  have second : Behaviour Step (unused fun _ => 0)
      [.allocate 4194312 (.clear 12), .allocate 4194328 (.clear 20)] _ :=
    first.step (@Step.malloc _ 24 true .refused ⟨by decide, by decide, by decide⟩ trivial)
  have third : Behaviour Step (unused fun _ => 0) _ _ :=
    second.step (@Step.write _ 4194308 0 7 (by decide) (by decide))
  obtain ⟨_, _, _, _, collects⟩ := small_area_refines_blocks third
  obtain ⟨after, collected⟩ := collects [4194308] .normal (by decide) trivial
  have fourth := third.step (@Step.collect _ _ .normal _ (by decide) trivial collected)
  obtain ⟨blocks, facts⟩ := small_area_refines_blocks fourth
  exact ⟨_, blocks, fourth, rfl, facts⟩

end SmallHeap

end LaTTe.Gc
