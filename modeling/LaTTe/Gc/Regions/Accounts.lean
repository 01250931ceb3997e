import LaTTe.Gc.Regions.Space

namespace LaTTe.Gc

open LaTTe.Data

/-! The totals of the memory manager.  Allocating and freeing inside the regions leaves
them alone. -/

namespace Manual

section

variable {heap next : GcHeap} {p lump cls : Nat}

theorem size_setMemory (heap : GcHeap) (address value : Nat) :
    (heap.setMemory address value).size = heap.size :=
  rfl

theorem size_insertFreelump (run : insertFreelump heap lump cls = some next) :
    next.size = heap.size := by
  rw [insertFreelump, Option.bind_eq_bind, Option.bind_eq_some_iff] at run
  obtain ⟨⟨before, node⟩, _, run⟩ := run
  rw [← Option.some.inj run]
  split <;> split <;> rfl

theorem size_removeFreelump (heap : GcHeap) (lump cls : Nat) :
    (removeFreelump heap lump cls).size = heap.size := by
  unfold removeFreelump
  dsimp only
  split <;> split <;> rfl

theorem size_splitLump {rounded : Nat} (run : splitLump heap p rounded = some next) :
    next.size = heap.size := by
  unfold splitLump at run
  split at run
  · rw [Option.bind_eq_bind, Option.bind_eq_some_iff] at run
    obtain ⟨inserted, insert, run⟩ := run
    rw [← Option.some.inj run]
    have same := size_insertFreelump insert
    exact same
  · rw [← Option.some.inj run]

theorem size_memAllocate {request : Nat} (run : memAllocate heap request = some (next, p)) :
    next.size = heap.size := by
  rw [memAllocate, Option.bind_eq_bind, Option.bind_eq_some_iff] at run
  obtain ⟨found, _, run⟩ := run
  split at run
  · dsimp only at run
    rw [Option.bind_eq_bind, Option.bind_eq_some_iff] at run
    obtain ⟨divided, cut, run⟩ := run
    obtain ⟨rfl, _⟩ := Prod.mk.inj (Option.some.inj run)
    have same := size_splitLump cut
    exact same.trans (size_removeFreelump _ _ _)
  · obtain ⟨rfl, _⟩ := Prod.mk.inj (Option.some.inj run)
    rfl

theorem size_coalescePrev (heap : GcHeap) (p : Nat) :
    (coalescePrev heap p).1.size = heap.size := by
  unfold coalescePrev
  split
  · rfl
  · exact size_removeFreelump _ _ _

theorem size_coalesceNext (heap : GcHeap) (p : Nat) :
    (coalesceNext heap p).size = heap.size := by
  unfold coalesceNext
  split
  · rfl
  · exact size_removeFreelump _ _ _

theorem size_memFree (run : memFree heap p = some next) : next.size = heap.size := by
  unfold memFree at run
  split at run
  · rw [← Option.some.inj run]
  · exact (size_insertFreelump run).trans
      ((size_coalesceNext _ _).trans (size_coalescePrev heap p))

theorem size_memResize {t request : Nat} (run : memResize heap p request = some (next, t)) :
    next.size = heap.size := by
  unfold memResize at run
  split at run
  · exact size_memAllocate run
  · rw [Option.bind_eq_bind, Option.bind_eq_some_iff] at run
    obtain ⟨⟨grown, found⟩, allocate, run⟩ := run
    dsimp only at run
    split at run
    · obtain ⟨rfl, _⟩ := Prod.mk.inj (Option.some.inj run)
      exact size_memAllocate allocate
    · rw [Option.bind_eq_bind, Option.bind_eq_some_iff] at run
      obtain ⟨freed, free, run⟩ := run
      obtain ⟨rfl, _⟩ := Prod.mk.inj (Option.some.inj run)
      have same := size_memFree free
      have grownSize := size_memAllocate allocate
      exact same.trans grownSize

theorem size_memFree_all {dead : List Nat} (run : dead.foldlM memFree heap = some next) :
    next.size = heap.size := by
  apply foldlM_run (fun _ (state : GcHeap) => state.size = heap.size) _ rfl run
  exact fun _ _ _ _ _ _ same freed => (size_memFree freed).trans same

theorem memExpand_eq {request : Nat} {start : Option Nat} {result : Int}
    (run : memExpand heap request start = some (next, result)) :
    (start = none ∧ next = heap ∧ result = -1) ∨
      (start.isSome ∧ next.size = (heap.size + regionSize request) % wordSize ∧
        result = 0) := by
  cases start with
  | none =>
      obtain ⟨rfl, rfl⟩ := Prod.mk.inj (Option.some.inj run)
      exact .inl ⟨rfl, rfl, rfl⟩
  | some start =>
      rw [memExpand, Option.bind_eq_bind, Option.bind_eq_some_iff] at run
      obtain ⟨inserted, insert, run⟩ := run
      obtain ⟨rfl, rfl⟩ := Prod.mk.inj (Option.some.inj run)
      refine .inr ⟨rfl, ?_, rfl⟩
      simp only [size_setMemory, size_insertFreelump insert]

end

end Manual

namespace Space

structure Accounts where
  limit : Nat
  obtained : Nat
  small : Nat
  large : Nat
  fixed : Nat

def accounts (space : Space) : Accounts where
  limit := space.limit
  obtained := space.obtained
  small := space.smallSize
  large := space.large.size
  fixed := space.fixed.size

namespace Accounts

def obtain (accounts : Accounts) (bytes : Nat) : Accounts :=
  { accounts with obtained := accounts.obtained + bytes }

def record (accounts : Accounts) (bytes : Nat) : ManualHeap → Accounts
  | .fixed => { accounts with fixed := (accounts.fixed + bytes) % Manual.wordSize }
  | .large => { accounts with large := (accounts.large + bytes) % Manual.wordSize }

def recordSmall (accounts : Accounts) (bytes : Nat) : Accounts :=
  { accounts with small := (accounts.small + bytes) % Manual.wordSize }

structure Balanced (accounts : Accounts) : Prop where
  sum : accounts.obtained = accounts.small + accounts.large + accounts.fixed
  limited : accounts.obtained ≤ accounts.limit
  word : accounts.limit < Manual.wordSize

variable {accounts : Accounts} {bytes : Nat}

theorem Balanced.record (balanced : Balanced accounts) (kind : ManualHeap)
    (fits : accounts.obtained + bytes ≤ accounts.limit) :
    Balanced ((accounts.obtain bytes).record bytes kind) := by
  have sum := balanced.sum
  have word := balanced.word
  cases kind with
  | fixed =>
      have small : (accounts.fixed + bytes) % Manual.wordSize = accounts.fixed + bytes :=
        Nat.mod_eq_of_lt (by omega)
      refine ⟨?_, fits, word⟩
      change accounts.obtained + bytes =
        accounts.small + accounts.large + (accounts.fixed + bytes) % Manual.wordSize
      omega
  | large =>
      have small : (accounts.large + bytes) % Manual.wordSize = accounts.large + bytes :=
        Nat.mod_eq_of_lt (by omega)
      refine ⟨?_, fits, word⟩
      change accounts.obtained + bytes =
        accounts.small + (accounts.large + bytes) % Manual.wordSize + accounts.fixed
      omega

theorem Balanced.recordSmall (balanced : Balanced accounts)
    (fits : accounts.obtained + bytes ≤ accounts.limit) :
    Balanced ((accounts.obtain bytes).recordSmall bytes) := by
  have sum := balanced.sum
  have word := balanced.word
  have small : (accounts.small + bytes) % Manual.wordSize = accounts.small + bytes :=
    Nat.mod_eq_of_lt (by omega)
  refine ⟨?_, fits, word⟩
  change accounts.obtained + bytes =
    (accounts.small + bytes) % Manual.wordSize + accounts.large + accounts.fixed
  omega

end Accounts

def Unchanged (before after : Space) : Prop :=
  after = { before with answers := after.answers }

theorem Unchanged.accounts {before after : Space} (unchanged : Unchanged before after) :
    after.accounts = before.accounts := by
  rw [unchanged]
  rfl

theorem obtained_insertEntry (table : List TableRegion) (entry : TableRegion) :
    ((insertEntry table entry).map TableRegion.bytes).sum =
      (table.map TableRegion.bytes).sum + entry.bytes := by
  have split := congrArg (fun table => (table.map TableRegion.bytes).sum)
    (List.takeWhile_append_dropWhile
      (p := fun node : TableRegion => decide (entry.start < node.start)) (l := table.reverse))
  simp only [List.map_append, List.sum_append, List.map_reverse, List.sum_reverse] at split
  simp only [insertEntry, List.map_append, List.sum_append, List.map_cons, List.sum_cons,
    List.map_reverse, List.sum_reverse]
  omega

variable {space next : Space} {size : Nat} {type : RegionType}

def Grants (answers : List (Option Nat)) : Prop :=
  ∃ start rest, askSystem answers = some (some start, rest)

structure Obtains (space : Space) (size : Nat) : Prop where
  within : space.overLimit size = false
  grants : Grants space.answers

/-- What `region_allocate` can do. -/
inductive RegionStep (space : Space) (size : Nat) (type : RegionType) :
    Space → Option Nat → Prop where
  | refused (answers : List (Option Nat)) (refused : ¬ space.Obtains size) :
      RegionStep space size type { space with answers := answers } none
  | granted (start : Nat) (answers : List (Option Nat))
      (within : space.overLimit size = false)
      (asked : askSystem space.answers = some (some start, answers)) :
      RegionStep space size type
        { space with
          answers := answers
          table := insertEntry space.table ⟨start, start + size, type⟩ } (some start)

theorem regionAllocate_step {region : Option Nat}
    (run : space.regionAllocate size type = some (next, region)) :
    RegionStep space size type next region := by
  rw [regionAllocate] at run
  cases beyond : space.overLimit size with
  | true =>
      rw [beyond, if_pos rfl] at run
      obtain ⟨rfl, rfl⟩ := Prod.mk.inj (Option.some.inj run)
      refine .refused space.answers fun obtains => ?_
      rw [obtains.within] at beyond
      contradiction
  | false =>
      rw [beyond, if_neg (by simp)] at run
      cases asked : askSystem space.answers with
      | none => simp [asked] at run
      | some answer =>
          obtain ⟨found, answers⟩ := answer
          cases found with
          | none =>
              rw [asked] at run
              obtain ⟨rfl, rfl⟩ := Prod.mk.inj (Option.some.inj run)
              refine .refused answers fun obtains => ?_
              obtain ⟨_, _, granted⟩ := obtains.grants
              rw [asked] at granted
              simp at granted
          | some start =>
              simp only [asked] at run
              split at run
              · obtain ⟨rfl, rfl⟩ := Prod.mk.inj (Option.some.inj run)
                exact .granted start answers beyond asked
              · contradiction

def Sums (space : Space) (size : Nat) : Prop :=
  space.Obtains size → size + space.obtained < Manual.wordSize

theorem memorySize_eq (balanced : space.accounts.Balanced) :
    space.memorySize = space.obtained := by
  have sum : space.obtained = space.smallSize + space.large.size + space.fixed.size :=
    balanced.sum
  have limited : space.obtained ≤ space.limit := balanced.limited
  have word : space.limit < Manual.wordSize := balanced.word
  rw [memorySize, ← sum]
  exact Nat.mod_eq_of_lt (by omega)

theorem Sums.fits (sums : space.Sums size) (balanced : space.accounts.Balanced)
    (obtains : space.Obtains size) : space.obtained + size ≤ space.limit := by
  have within := obtains.within
  rw [overLimit, memorySize_eq balanced, Nat.mod_eq_of_lt (sums obtains)] at within
  have := of_decide_eq_false within
  omega

/-- What `mem_expand` can do to the whole. -/
inductive ExpandStep (space : Space) (kind : ManualHeap) (request : Nat) (next : Space) :
    Int → Prop where
  | failed (refused : ¬ space.Obtains (Manual.regionSize request))
      (unchanged : Unchanged space next) : ExpandStep space kind request next (-1)
  | expanded (obtains : space.Obtains (Manual.regionSize request))
      (recorded : next.accounts =
        (space.accounts.obtain (Manual.regionSize request)).record
          (Manual.regionSize request) kind) :
      ExpandStep space kind request next 0

theorem memExpand_step {kind : ManualHeap} {request : Nat} {result : Int}
    (run : space.memExpand kind request = some (next, result)) :
    ExpandStep space kind request next result := by
  rw [memExpand, Option.bind_eq_bind, Option.bind_eq_some_iff] at run
  obtain ⟨⟨middle, region⟩, allocate, run⟩ := run
  rw [Option.bind_eq_bind, Option.bind_eq_some_iff] at run
  obtain ⟨⟨heap, result'⟩, expand, run⟩ := run
  obtain ⟨rfl, rfl⟩ := Prod.mk.inj (Option.some.inj run)
  cases regionAllocate_step allocate with
  | refused answers refused =>
      rcases Manual.memExpand_eq expand with ⟨_, rfl, rfl⟩ | ⟨found, _, _⟩
      · exact .failed refused (by cases kind <;> rfl)
      · contradiction
  | granted start answers within asked =>
      rcases Manual.memExpand_eq expand with ⟨none, _, _⟩ | ⟨_, size, rfl⟩
      · contradiction
      · refine .expanded ⟨within, start, answers, asked⟩ ?_
        have total := obtained_insertEntry space.table
          ⟨start, start + Manual.regionSize request, kind.type⟩
        have bytes : TableRegion.bytes
            ⟨start, start + Manual.regionSize request, kind.type⟩ =
              Manual.regionSize request := Nat.add_sub_cancel_left _ _
        rw [bytes] at total
        cases kind with
        | fixed =>
            simp only [Space.heap] at size
            simp only [accounts, obtained, Accounts.obtain, Accounts.record, setHeap, size, total]
        | large =>
            simp only [Space.heap] at size
            simp only [accounts, obtained, Accounts.obtain, Accounts.record, setHeap, size, total]

def Allocator.Keeps (allocate : Allocator) : Prop :=
  ∀ heap next p, allocate heap = some (next, p) → next.size = heap.size

def Allocator.Lacks (allocate : Allocator) (heap : Manual.GcHeap) : Prop :=
  ∃ next, allocate heap = some (next, 0)

theorem accounts_setHeap (space : Space) (kind : ManualHeap) {heap : Manual.GcHeap}
    (same : heap.size = (space.heap kind).size) :
    (space.setHeap kind heap).accounts = space.accounts := by
  cases kind <;> simp only [Space.heap] at same <;>
    simp only [setHeap, accounts, obtained, same]

theorem accounts_markFixed (space : Space) (p : Nat) :
    (space.markFixed p).accounts = space.accounts :=
  rfl

section

variable {kind : ManualHeap} {request p : Nat} {allocate : Allocator}

inductive RetryStep (space : Space) (kind : ManualHeap) (request : Nat) (next : Space) :
    Nat → Prop where
  | failed (refused : ¬ space.Obtains (Manual.regionSize request))
      (unchanged : Unchanged space next) : RetryStep space kind request next 0
  | expanded (p : Nat) (found : p ≠ 0)
      (obtains : space.Obtains (Manual.regionSize request))
      (recorded : next.accounts =
        (space.accounts.obtain (Manual.regionSize request)).record
          (Manual.regionSize request) kind) : RetryStep space kind request next p

theorem expandAndRetry_step (keeps : allocate.Keeps)
    (run : space.expandAndRetry kind request allocate = some (next, p)) :
    RetryStep space kind request next p := by
  rw [expandAndRetry, Option.bind_eq_bind, Option.bind_eq_some_iff] at run
  obtain ⟨⟨middle, result⟩, expand, run⟩ := run
  cases memExpand_step expand with
  | failed refused unchanged =>
      obtain ⟨rfl, rfl⟩ := Prod.mk.inj (Option.some.inj run)
      exact .failed refused unchanged
  | expanded obtains recorded =>
      cases allocated : allocate (middle.heap kind) with
      | none => simp [allocated] at run
      | some taken =>
          obtain ⟨heap, found⟩ := taken
          by_cases zero : found = 0
          · simp [allocated, zero] at run
          · simp only [allocated, zero, if_false, Int.lt_irrefl, Option.some.injEq,
              Prod.mk.injEq] at run
            obtain ⟨rfl, rfl⟩ := run
            refine .expanded found zero obtains ?_
            rw [accounts_setHeap _ kind (keeps _ _ _ allocated), recorded]

/-- What `gc_malloc_fixed` and `gc_realloc_fixed` can do. -/
inductive TakeStep (space : Space) (request : Nat) (allocate : Allocator) (next : Space)
    (p : Nat) : Prop where
  | served (found : p ≠ 0) (same : next.accounts = space.accounts) :
      TakeStep space request allocate next p
  | expanded (lacks : allocate.Lacks space.fixed)
      (retried : RetryStep space .fixed request next p) :
      TakeStep space request allocate next p

theorem takeFixed_step (keeps : allocate.Keeps)
    (run : space.takeFixed request allocate = some (next, p)) :
    TakeStep space request allocate next p := by
  rw [takeFixed, Option.bind_eq_bind, Option.bind_eq_some_iff] at run
  obtain ⟨⟨heap, first⟩, allocated, run⟩ := run
  by_cases zero : first = 0
  · subst zero
    dsimp only at run
    rw [if_pos rfl, Option.bind_eq_bind, Option.bind_eq_some_iff] at run
    obtain ⟨⟨after, second⟩, retry, run⟩ := run
    have retried := expandAndRetry_step keeps retry
    refine .expanded ⟨heap, allocated⟩ ?_
    cases retried with
    | failed refused unchanged =>
        obtain ⟨rfl, rfl⟩ := Prod.mk.inj (Option.some.inj run)
        exact .failed refused unchanged
    | expanded _ found obtains recorded =>
        simp only [found, if_false, Option.some.injEq, Prod.mk.injEq] at run
        obtain ⟨rfl, rfl⟩ := run
        exact .expanded second found obtains recorded
  · simp only [zero, if_false, Option.some.injEq, Prod.mk.injEq] at run
    obtain ⟨rfl, rfl⟩ := run
    refine .served zero ?_
    rw [accounts_markFixed]
    exact accounts_setHeap _ .fixed (keeps _ _ _ allocated)

theorem RetryStep.balanced (sums : space.Sums (Manual.regionSize request))
    (balanced : space.accounts.Balanced) (step : RetryStep space kind request next p) :
    next.accounts.Balanced := by
  cases step with
  | failed _ unchanged => rwa [unchanged.accounts]
  | expanded _ _ obtains recorded =>
      rw [recorded]
      exact balanced.record kind (sums.fits balanced obtains)

theorem TakeStep.balanced
    (sums : allocate.Lacks space.fixed → space.Sums (Manual.regionSize request))
    (balanced : space.accounts.Balanced) (step : TakeStep space request allocate next p) :
    next.accounts.Balanced := by
  cases step with
  | served _ same => rwa [same]
  | expanded lacks retried => exact retried.balanced (sums lacks) balanced

end

/-! The small object area. -/

/-- `gc_malloc_fixed` for a new block usage table. -/
def allocateTable : Allocator :=
  fun heap => Manual.memAllocate heap (smallBlocksTableSize * 4)

def TableReady (space : Space) : Prop :=
  space.tablePos < smallBlocksTableSize ∨ ¬ allocateTable.Lacks space.fixed ∨
    (space.obtained + 2 * gcRegionSize ≤ space.limit ∧
      ∀ start answers, askSystem space.answers = some (some start, answers) → Grants answers)

/-- What `expand_small_area` can do.  The other results are those of a failure. -/
inductive SmallStep (space : Space) (next : Space) : Small.Grant → Prop where
  | refused (unchanged : Unchanged space next) : SmallStep space next .refused
  | noTable (obtains : space.Obtains gcRegionSize) (unready : ¬ space.TableReady) :
      SmallStep space next .noTable
  | region (start : Nat) (table : Nat → BitVec 32) (obtains : space.Obtains gcRegionSize)
      (recorded : next.accounts = (space.accounts.obtain gcRegionSize).recordSmall gcRegionSize) :
      SmallStep space next (.region start table)
  | regionAndTable (start : Nat) (table : Nat → BitVec 32)
      (obtains : space.Obtains gcRegionSize)
      (full : smallBlocksTableSize ≤ space.tablePos)
      (lacks : allocateTable.Lacks space.fixed)
      (recorded : next.accounts =
        ((((space.accounts.obtain gcRegionSize).record gcRegionSize .fixed).obtain
          gcRegionSize).recordSmall gcRegionSize)) :
      SmallStep space next (.region start table)

theorem regionSize_table : Manual.regionSize (smallBlocksTableSize * 4) = gcRegionSize := by
  decide

theorem allocateTable_keeps : allocateTable.Keeps :=
  fun _ _ _ run => Manual.size_memAllocate run

theorem TableReady.obtains {start : Nat} {answers : List (Option Nat)} {entry : TableRegion}
    (ready : space.TableReady) (balanced : space.accounts.Balanced)
    (full : smallBlocksTableSize ≤ space.tablePos) (lacks : allocateTable.Lacks space.fixed)
    (asked : askSystem space.answers = some (some start, answers)) :
    Obtains { space with answers := answers, table := insertEntry space.table entry }
      gcRegionSize := by
  rcases ready with early | serves | ⟨room, grants⟩
  · omega
  · contradiction
  · refine ⟨?_, grants start answers asked⟩
    have word : space.limit < Manual.wordSize := balanced.word
    have memory := memorySize_eq balanced
    change decide (space.limit < (gcRegionSize + space.memorySize) % Manual.wordSize) = false
    rw [memory, Nat.mod_eq_of_lt (by omega)]
    exact decide_eq_false (by omega)

/-- What `smallGrant` can do; the new region is not recorded yet. -/
theorem smallGrant_step {grant : Small.Grant} (balanced : space.accounts.Balanced)
    (run : space.smallGrant = some (next, grant)) :
    (grant = .refused ∧ Unchanged space next) ∨
      (grant = .noTable ∧ space.Obtains gcRegionSize ∧ ¬ space.TableReady) ∨
      (∃ start table, grant = .region start table) ∧ space.Obtains gcRegionSize ∧
        (next.accounts = space.accounts.obtain gcRegionSize ∨
          smallBlocksTableSize ≤ space.tablePos ∧ allocateTable.Lacks space.fixed ∧
            next.accounts = ((space.accounts.obtain gcRegionSize).obtain gcRegionSize).record
              gcRegionSize .fixed) := by
  rw [smallGrant, Option.bind_eq_bind, Option.bind_eq_some_iff] at run
  obtain ⟨⟨middle, region⟩, allocate, run⟩ := run
  cases regionAllocate_step allocate with
  | refused answers refused =>
      obtain ⟨rfl, rfl⟩ := Prod.mk.inj (Option.some.inj run)
      exact .inl ⟨rfl, rfl⟩
  | granted start answers within asked =>
      have obtains : space.Obtains gcRegionSize := ⟨within, start, answers, asked⟩
      have middleAccounts : accounts { space with
          answers := answers
          table := insertEntry space.table ⟨start, start + gcRegionSize, .small⟩ } =
          space.accounts.obtain gcRegionSize := by
        have total := obtained_insertEntry space.table ⟨start, start + gcRegionSize, .small⟩
        have bytes : TableRegion.bytes ⟨start, start + gcRegionSize, .small⟩ = gcRegionSize :=
          Nat.add_sub_cancel_left _ _
        rw [bytes] at total
        simp only [accounts, obtained, Accounts.obtain, total]
      dsimp only at run
      by_cases full : smallBlocksTableSize ≤ space.tablePos
      · rw [if_pos full, Option.bind_eq_bind, Option.bind_eq_some_iff] at run
        obtain ⟨⟨after, p⟩, malloc, run⟩ := run
        cases takeFixed_step allocateTable_keeps malloc with
        | served found same =>
            simp only [found, if_false, Option.some.injEq, Prod.mk.injEq] at run
            obtain ⟨rfl, rfl⟩ := run
            exact .inr (.inr ⟨⟨_, _, rfl⟩, obtains, .inl (same.trans middleAccounts)⟩)
        | expanded lacks retried =>
            cases retried with
            | failed refused unchanged =>
                rw [regionSize_table] at refused
                obtain ⟨rfl, rfl⟩ := Prod.mk.inj (Option.some.inj run)
                refine .inr (.inl ⟨rfl, obtains, fun ready => refused ?_⟩)
                exact ready.obtains balanced full lacks asked
            | expanded _ found _ recorded =>
                rw [regionSize_table, middleAccounts] at recorded
                simp only [found, if_false, Option.some.injEq, Prod.mk.injEq] at run
                obtain ⟨rfl, rfl⟩ := run
                exact .inr (.inr ⟨⟨_, _, rfl⟩, obtains, .inr ⟨full, lacks, recorded⟩⟩)
      · rw [if_neg full] at run
        obtain ⟨rfl, rfl⟩ := Prod.mk.inj (Option.some.inj run)
        exact .inr (.inr ⟨⟨_, _, rfl⟩, obtains, .inl middleAccounts⟩)

theorem expandSmallArea_step {grant : Small.Grant} (balanced : space.accounts.Balanced)
    (run : space.expandSmallArea = some (next, grant)) : SmallStep space next grant := by
  rw [expandSmallArea, Option.bind_eq_bind, Option.bind_eq_some_iff] at run
  obtain ⟨⟨middle, granted⟩, allocate, run⟩ := run
  rcases smallGrant_step balanced allocate with ⟨rfl, unchanged⟩ | ⟨rfl, obtains, unready⟩ |
    ⟨⟨start, table, rfl⟩, obtains, recorded⟩
  · obtain ⟨rfl, rfl⟩ := Prod.mk.inj (Option.some.inj run)
    exact .refused unchanged
  · obtain ⟨rfl, rfl⟩ := Prod.mk.inj (Option.some.inj run)
    exact .noTable obtains unready
  · obtain ⟨rfl, rfl⟩ := Prod.mk.inj (Option.some.inj run)
    have entered : ∀ area : Small, accounts { middle with
        area := area
        smallSize := (middle.smallSize + gcRegionSize) % Manual.wordSize } =
        middle.accounts.recordSmall gcRegionSize := fun _ => rfl
    rcases recorded with recorded | ⟨full, lacks, recorded⟩
    · exact .region start table obtains (by rw [entered, recorded])
    · exact .regionAndTable start table obtains full lacks (by rw [entered, recorded]; rfl)

theorem SmallStep.balanced {grant : Small.Grant} (sums : space.Sums gcRegionSize)
    (ready : space.Obtains gcRegionSize → space.TableReady)
    (balanced : space.accounts.Balanced) (step : SmallStep space next grant) :
    next.accounts.Balanced := by
  cases step with
  | refused unchanged => rwa [unchanged.accounts]
  | noTable obtains unready => exact absurd (ready obtains) unready
  | region start table obtains recorded =>
      rw [recorded]
      exact balanced.recordSmall (sums.fits balanced obtains)
  | regionAndTable start table obtains full lacks recorded =>
      have room : space.obtained + 2 * gcRegionSize ≤ space.limit := by
        rcases ready obtains with early | serves | ⟨room, _⟩
        · omega
        · contradiction
        · exact room
      rw [recorded]
      apply (balanced.record .fixed _).recordSmall
      · change space.obtained + gcRegionSize + gcRegionSize ≤ space.limit
        omega
      · change space.obtained + gcRegionSize ≤ space.limit
        omega

theorem accounts_takeSmall {result : Result}
    (run : space.takeSmall size = some (next, result)) : next.accounts = space.accounts := by
  rw [takeSmall, Option.map_eq_some_iff] at run
  obtain ⟨⟨tmp, area⟩, _, finished⟩ := run
  exact (congrArg (·.1.accounts) finished).symm

theorem expandAndAllocateSmall_balanced {result : Result} (sums : space.Sums gcRegionSize)
    (ready : space.Obtains gcRegionSize → space.TableReady)
    (balanced : space.accounts.Balanced)
    (run : space.expandAndAllocateSmall size = some (next, result)) :
    next.accounts.Balanced := by
  rw [expandAndAllocateSmall, Option.bind_eq_bind, Option.bind_eq_some_iff] at run
  obtain ⟨⟨middle, grant⟩, expand, run⟩ := run
  have kept := (expandSmallArea_step balanced expand).balanced sums ready balanced
  have taken : next = middle ∨ next.accounts = middle.accounts := by
    cases take : middle.takeSmall size with
    | none => cases grant <;> simp [take] at run <;> exact .inl run.1.symm
    | some finished =>
        obtain ⟨after, outcome⟩ := finished
        have same := accounts_takeSmall take
        cases grant with
        | noTable =>
            obtain ⟨rfl, rfl⟩ := Prod.mk.inj (Option.some.inj run)
            exact .inl rfl
        | refused =>
            simp only [take, Option.getD_some, Option.some.injEq, Prod.mk.injEq] at run
            exact .inr (run.1 ▸ same)
        | region start table =>
            simp only [take, Option.getD_some, Option.some.injEq, Prod.mk.injEq] at run
            exact .inr (run.1 ▸ same)
  rcases taken with rfl | same
  · exact kept
  · rwa [same]

end Space

end LaTTe.Gc
