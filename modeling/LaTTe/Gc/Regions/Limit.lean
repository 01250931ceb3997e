import LaTTe.Data.Transition
import LaTTe.Gc.Regions.Accounts

namespace LaTTe.Gc

open LaTTe.Data

namespace Space

/-! Runs of the memory manager.  A thread that waits for a garbage collection may go on at
any time, and the program may write to its memory. -/

inductive Event where
  | mallocFixed (size : Nat)
  | reallocFixed (p size : Nat)
  | free (p : Nat)
  | mallocLarge (size : Nat)
  | resumeLarge (size : Nat)
  | mallocSmall (size : Nat)
  | resumeSmall (size : Nat)
  | collect (collection : Collection)
  | write (fixed large small : Memory)

def exec (space : Space) : Event → Option Space
  | .mallocFixed size => (space.gcMallocFixed size).map Prod.fst
  | .reallocFixed p size => (space.gcReallocFixed p size).map Prod.fst
  | .free p => space.gcFree p
  | .mallocLarge size => (space.gcMallocLarge size).map Prod.fst
  | .resumeLarge size => (space.resumeLargeAllocate size).map Prod.fst
  | .mallocSmall size => (space.gcMallocSmall size).map Prod.fst
  | .resumeSmall size => (space.resumeSmallAllocate size).map Prod.fst
  | .collect collection => space.collect collection
  | .write fixed large small =>
      some { space with
        fixed := { space.fixed with memory := fixed }
        large := { space.large with memory := large }
        area := { space.area with memory := small } }

/-- A call of `mem_expand` or of `expand_small_area`. -/
inductive Expansion where
  | manual (kind : ManualHeap) (request : Nat)
  | small

def expand (space : Space) : Expansion → Option (Space × Bool)
  | .manual kind request =>
      (space.memExpand kind request).map fun (space, result) => (space, decide (result < 0))
  | .small =>
      space.expandSmallArea.map fun (space, grant) =>
        (space, match grant with
          | .region _ _ => false
          | _ => true)

inductive Expands (space : Space) : Event → Expansion → Prop where
  | mallocFixed {size : Nat}
      (lacks : Allocator.Lacks (fun heap => Manual.memAllocate heap size) space.fixed) :
      Expands space (.mallocFixed size) (.manual .fixed size)
  | reallocFixed {p size : Nat}
      (lacks : Allocator.Lacks (fun heap => Manual.memResize heap p size) space.fixed) :
      Expands space (.reallocFixed p size) (.manual .fixed size)
  | mallocLarge {size : Nat}
      (lacks : Allocator.Lacks (fun heap => Manual.memAllocate heap (largeSize size))
        space.large)
      (room : space.largeRoom size = true) :
      Expands space (.mallocLarge size) (.manual .large (largeSize size))
  | resumeLarge {size : Nat}
      (lacks : Allocator.Lacks (fun heap => Manual.memAllocate heap (largeSize size))
        space.large) :
      Expands space (.resumeLarge size) (.manual .large (largeSize size))
  | mallocSmall {size : Nat} (slow : space.area.bound < space.area.cursor + size)
      (lacks : space.closeSmall.takeSmall size = none) (room : space.smallRoom = true) :
      Expands space (.mallocSmall size) .small
  | resumeSmall {size : Nat} (lacks : space.closeSmall.takeSmall size = none) :
      Expands space (.resumeSmall size) .small

def Careful (space : Space) : Expansion → Prop
  | .manual _ request => space.Sums (Manual.regionSize request)
  | .small => space.Sums gcRegionSize ∧ (space.Obtains gcRegionSize → space.TableReady)

structure CarefulEvent (space : Space) (event : Event) : Prop where
  expansions : ∀ expansion, Expands space event expansion → space.Careful expansion
  rounding : ∀ collection, event = .collect collection → collection.lack = true →
    space.limit ≤ Manual.wordSize - gcRegionSize

def Step (allowed : Space → Event → Prop) (before after : Space) : Prop :=
  ∃ event, allowed before event ∧ before.exec event = some after

/-- `gc_fixed_init`: nothing has been obtained yet. -/
structure Initial (space : Space) : Prop where
  table : space.table = []
  fixed : space.fixed = Manual.memInit space.fixed.memory
  large : space.large = Manual.memInit space.large.memory
  area : space.area = ⟨space.area.memory, [], 0, 0, 0, 0⟩
  smallSize : space.smallSize = 0
  tablePos : space.tablePos = 0
  word : space.limit < Manual.wordSize

variable {space next : Space}

theorem Initial.balanced (initial : Initial space) : space.accounts.Balanced := by
  have fixed := congrArg Manual.GcHeap.size initial.fixed
  have large := congrArg Manual.GcHeap.size initial.large
  have obtained : space.obtained = 0 := by simp [obtained, initial.table]
  refine ⟨?_, ?_, initial.word⟩
  · change space.obtained = space.smallSize + space.large.size + space.fixed.size
    rw [obtained, fixed, large, initial.smallSize]
    rfl
  · change space.obtained ≤ space.limit
    omega

theorem roundUpRegionSize_ge {size : Nat} (fits : size ≤ Manual.wordSize - gcRegionSize) :
    size ≤ roundUpRegionSize size ∧ roundUpRegionSize size < Manual.wordSize := by
  unfold roundUpRegionSize gcRegionSize Manual.wordSize at *
  omega

theorem Accounts.Balanced.raise {accounts : Accounts} {limit : Nat}
    (balanced : accounts.Balanced) (more : accounts.limit ≤ limit)
    (word : limit < Manual.wordSize) : Balanced { accounts with limit := limit } :=
  ⟨balanced.sum, balanced.limited.trans more, word⟩

theorem accounts_setLimits (space : Space) (limit heapSize : Nat) :
    accounts { space with limit := limit, heapSize := heapSize } =
      { space.accounts with limit := limit } :=
  rfl

theorem accounts_expandHeap (space : Space) (amount : Int) :
    (space.expandHeap amount).accounts =
      { space.accounts with limit := roundUpRegionSize space.limit } := by
  unfold expandHeap
  exact accounts_setLimits space _ _

theorem expandHeap_balanced (amount : Int) (fits : space.limit ≤ Manual.wordSize - gcRegionSize)
    (balanced : space.accounts.Balanced) : (space.expandHeap amount).accounts.Balanced := by
  have limit := roundUpRegionSize_ge fits
  rw [accounts_expandHeap]
  exact balanced.raise limit.1 limit.2

theorem collect_balanced {collection : Collection}
    (rounding : collection.lack = true → space.limit ≤ Manual.wordSize - gcRegionSize)
    (balanced : space.accounts.Balanced)
    (run : space.collect collection = some next) : next.accounts.Balanced := by
  rw [collect, Option.bind_eq_bind, Option.bind_eq_some_iff] at run
  obtain ⟨area, _, run⟩ := run
  rw [Option.bind_eq_bind, Option.bind_eq_some_iff] at run
  obtain ⟨large, freed, run⟩ := run
  have swept : accounts { space with area := area, large := large } = space.accounts := by
    simp only [accounts, obtained, Manual.size_memFree_all freed]
  rw [← swept] at balanced
  cases lack : collection.lack with
  | false =>
      dsimp only at run
      rw [lack, if_neg (by simp)] at run
      obtain rfl := Option.some.inj run
      exact balanced
  | true =>
      dsimp only at run
      rw [lack, if_pos rfl] at run
      obtain rfl := Option.some.inj run
      exact expandHeap_balanced collection.amount (rounding lack) balanced

theorem memAllocate_keeps (size : Nat) :
    Allocator.Keeps fun heap => Manual.memAllocate heap size :=
  fun _ _ _ run => Manual.size_memAllocate run

theorem memResize_keeps (p size : Nat) :
    Allocator.Keeps fun heap => Manual.memResize heap p size :=
  fun _ _ _ run => Manual.size_memResize run

theorem Careful.closeSmall (careful : space.Careful .small) :
    space.closeSmall.Careful .small :=
  ⟨fun obtains => careful.1 ⟨obtains.within, obtains.grants⟩,
    fun obtains => careful.2 ⟨obtains.within, obtains.grants⟩⟩

theorem resumeSmallAllocate_balanced {size : Nat} {result : Result}
    (careful : space.closeSmall.takeSmall size = none → space.Careful .small)
    (balanced : space.accounts.Balanced)
    (run : space.resumeSmallAllocate size = some (next, result)) :
    next.accounts.Balanced := by
  have closed : space.closeSmall.accounts = space.accounts := rfl
  cases taken : space.closeSmall.takeSmall size with
  | some finished =>
      rw [resumeSmallAllocate, taken] at run
      obtain rfl := Option.some.inj run
      rwa [accounts_takeSmall taken, closed]
  | none =>
      rw [resumeSmallAllocate, taken] at run
      obtain ⟨sums, ready⟩ := (careful taken).closeSmall
      rw [← closed] at balanced
      exact expandAndAllocateSmall_balanced sums ready balanced run

theorem gcMallocSmall_balanced {size : Nat} {result : Result}
    (careful : space.area.bound < space.area.cursor + size →
      space.closeSmall.takeSmall size = none → space.smallRoom = true → space.Careful .small)
    (balanced : space.accounts.Balanced)
    (run : space.gcMallocSmall size = some (next, result)) : next.accounts.Balanced := by
  have closed : space.closeSmall.accounts = space.accounts := rfl
  by_cases slow : space.area.bound < space.area.cursor + size
  · rw [gcMallocSmall, if_pos slow, slowSmallAllocate] at run
    cases taken : space.closeSmall.takeSmall size with
    | some finished =>
        rw [taken] at run
        obtain rfl := Option.some.inj run
        rwa [accounts_takeSmall taken, closed]
    | none =>
        rw [taken] at run
        cases room : space.smallRoom with
        | true =>
            simp only [room, if_true] at run
            obtain ⟨sums, ready⟩ := (careful slow taken room).closeSmall
            rw [← closed] at balanced
            exact expandAndAllocateSmall_balanced sums ready balanced run
        | false =>
            simp only [room] at run
            obtain ⟨rfl, _⟩ := Prod.mk.inj (Option.some.inj run)
            exact balanced
  · rw [gcMallocSmall, if_neg slow] at run
    have same := congrArg (·.1.accounts) (Option.some.inj run)
    change space.accounts = next.accounts at same
    rwa [← same]

theorem expandLarge_balanced {size : Nat} {result : Result}
    (sums : space.Sums (Manual.regionSize (largeSize size)))
    (balanced : space.accounts.Balanced)
    (run : (space.expandAndRetry .large (largeSize size) fun heap =>
      Manual.memAllocate heap (largeSize size)).map largeResult = some (next, result)) :
    next.accounts.Balanced := by
  obtain ⟨⟨after, p⟩, retry, finished⟩ := Option.map_eq_some_iff.mp run
  obtain rfl : after = next := congrArg Prod.fst finished
  exact (expandAndRetry_step (memAllocate_keeps _) retry).balanced sums balanced

theorem resumeLargeAllocate_balanced {size : Nat} {result : Result}
    (careful : Allocator.Lacks (fun heap => Manual.memAllocate heap (largeSize size))
      space.large → space.Sums (Manual.regionSize (largeSize size)))
    (balanced : space.accounts.Balanced)
    (run : space.resumeLargeAllocate size = some (next, result)) :
    next.accounts.Balanced := by
  rw [resumeLargeAllocate, Option.bind_eq_bind, Option.bind_eq_some_iff] at run
  obtain ⟨⟨heap, p⟩, allocated, run⟩ := run
  by_cases zero : p = 0
  · subst zero
    dsimp only at run
    rw [if_pos rfl] at run
    exact expandLarge_balanced (careful ⟨heap, allocated⟩) balanced
      (by simpa [Option.map_eq_bind] using run)
  · simp only [zero, if_false, Option.some.injEq, Prod.mk.injEq] at run
    obtain ⟨rfl, _⟩ := run
    have same := accounts_setHeap space .large (Manual.size_memAllocate allocated)
    rw [← same] at balanced
    exact balanced

theorem gcMallocLarge_balanced {size : Nat} {result : Result}
    (careful : Allocator.Lacks (fun heap => Manual.memAllocate heap (largeSize size))
      space.large → space.largeRoom size = true →
        space.Sums (Manual.regionSize (largeSize size)))
    (balanced : space.accounts.Balanced)
    (run : space.gcMallocLarge size = some (next, result)) : next.accounts.Balanced := by
  rw [gcMallocLarge, Option.bind_eq_bind, Option.bind_eq_some_iff] at run
  obtain ⟨⟨heap, p⟩, allocated, run⟩ := run
  by_cases zero : p = 0
  · subst zero
    dsimp only at run
    rw [if_pos rfl] at run
    cases room : space.largeRoom size with
    | true =>
        rw [room, if_pos rfl] at run
        exact expandLarge_balanced (careful ⟨heap, allocated⟩ room) balanced
          (by simpa [Option.map_eq_bind] using run)
    | false =>
        simp only [room] at run
        obtain ⟨rfl, _⟩ := Prod.mk.inj (Option.some.inj run)
        exact balanced
  · simp only [zero, if_false, Option.some.injEq, Prod.mk.injEq] at run
    obtain ⟨rfl, _⟩ := run
    have same := accounts_setHeap space .large (Manual.size_memAllocate allocated)
    rw [← same] at balanced
    exact balanced

theorem exec_balanced {event : Event} (careful : CarefulEvent space event)
    (balanced : space.accounts.Balanced) (run : space.exec event = some next) :
    next.accounts.Balanced := by
  cases event with
  | mallocFixed size =>
      obtain ⟨⟨after, p⟩, taken, rfl⟩ := Option.map_eq_some_iff.mp run
      exact (takeFixed_step (memAllocate_keeps size) taken).balanced
        (fun lacks => careful.expansions _ (.mallocFixed lacks)) balanced
  | reallocFixed p size =>
      obtain ⟨⟨after, t⟩, taken, rfl⟩ := Option.map_eq_some_iff.mp run
      exact (takeFixed_step (memResize_keeps p size) taken).balanced
        (fun lacks => careful.expansions _ (.reallocFixed lacks)) balanced
  | free p =>
      rw [exec, gcFree, Option.bind_eq_bind, Option.bind_eq_some_iff] at run
      obtain ⟨heap, freed, run⟩ := run
      obtain rfl := Option.some.inj run
      have same := accounts_setHeap space .fixed (Manual.size_memFree freed)
      rw [← same] at balanced
      exact balanced
  | mallocLarge size =>
      obtain ⟨⟨after, result⟩, taken, rfl⟩ := Option.map_eq_some_iff.mp run
      exact gcMallocLarge_balanced
        (fun lacks room => careful.expansions _ (.mallocLarge lacks room)) balanced taken
  | resumeLarge size =>
      obtain ⟨⟨after, result⟩, taken, rfl⟩ := Option.map_eq_some_iff.mp run
      exact resumeLargeAllocate_balanced
        (fun lacks => careful.expansions _ (.resumeLarge lacks)) balanced taken
  | mallocSmall size =>
      obtain ⟨⟨after, result⟩, taken, rfl⟩ := Option.map_eq_some_iff.mp run
      exact gcMallocSmall_balanced
        (fun slow lacks room => careful.expansions _ (.mallocSmall slow lacks room))
        balanced taken
  | resumeSmall size =>
      obtain ⟨⟨after, result⟩, taken, rfl⟩ := Option.map_eq_some_iff.mp run
      exact resumeSmallAllocate_balanced
        (fun lacks => careful.expansions _ (.resumeSmall lacks)) balanced taken
  | collect collection => exact collect_balanced (careful.rounding _ rfl) balanced run
  | write fixed large small =>
      obtain rfl := Option.some.inj run
      exact balanced

theorem expand_unchanged {expansion : Expansion} (careful : space.Careful expansion)
    (balanced : space.accounts.Balanced) (run : space.expand expansion = some (next, true)) :
    Unchanged space next := by
  cases expansion with
  | manual kind request =>
      obtain ⟨⟨after, result⟩, expand, finished⟩ := Option.map_eq_some_iff.mp run
      obtain ⟨rfl, failed⟩ := Prod.mk.inj finished
      cases memExpand_step expand with
      | failed _ unchanged => exact unchanged
      | expanded => contradiction
  | small =>
      obtain ⟨⟨after, grant⟩, expand, finished⟩ := Option.map_eq_some_iff.mp run
      obtain ⟨rfl, failed⟩ := Prod.mk.inj finished
      cases expandSmallArea_step balanced expand with
      | refused unchanged => exact unchanged
      | noTable obtains unready => exact absurd (careful.2 obtains) unready
      | region => contradiction
      | regionAndTable => contradiction

theorem reachable_balanced (reached : Reachable Initial (Step CarefulEvent) space) :
    space.accounts.Balanced := by
  apply reached.invariant fun space => space.accounts.Balanced
  · exact fun _ initial => initial.balanced
  · rintro before after balanced ⟨event, careful, run⟩
    exact exec_balanced careful balanced run

/-- In every run of careful events the regions obtained stay within the limit, and are
what is recorded for the three allocators; a careful expansion that fails leaves the region
table, the sizes and the free lists as they were. -/
theorem limit_kept_by_careful_runs (space : Space)
    (reached : Reachable Initial (Step CarefulEvent) space) :
    space.obtained ≤ space.limit ∧
      space.obtained = space.smallSize + space.large.size + space.fixed.size ∧
      ∀ expansion next, space.Careful expansion →
        space.expand expansion = some (next, true) → Unchanged space next := by
  have balanced := reachable_balanced reached
  exact ⟨balanced.limited, balanced.sum,
    fun _ _ careful run => expand_unchanged careful balanced run⟩

/-! A limit of 4095 megabytes. -/

private def start : Space where
  limit := 4095 * 2 ^ 20
  heapSize := 8 * 2 ^ 20
  table := []
  fixed := Manual.memInit fun _ => 0
  large := Manual.memInit fun _ => 0
  area := ⟨fun _ => 0, [], 0, 0, 0, 0⟩
  smallSize := 0
  tablePos := 0
  answers := [some 1048576]

private theorem start_initial : Initial start :=
  ⟨rfl, rfl, rfl, rfl, rfl, rfl, by decide⟩

private def allocateMarkStack : Event :=
  .mallocFixed (2 ^ 20)

/-- The largest region that an event may ask the system for. -/
private def asked : Event → Nat
  | .mallocFixed size | .reallocFixed _ size => Manual.regionSize size
  | .mallocLarge size | .resumeLarge size => Manual.regionSize (largeSize size)
  | .mallocSmall _ | .resumeSmall _ => gcRegionSize
  | .free _ | .collect _ | .write _ _ _ => 0

private def Prudent (space : Space) (event : Event) : Prop :=
  asked event + space.obtained < Manual.wordSize ∧ space.tablePos < smallBlocksTableSize ∧
    space.limit ≤ Manual.wordSize - gcRegionSize

private instance (space : Space) (event : Event) : Decidable (Prudent space event) :=
  inferInstanceAs (Decidable (_ ∧ _ ∧ _))

private theorem careful_of_prudent {event : Event} (prudent : Prudent space event) :
    CarefulEvent space event where
  expansions := by
    obtain ⟨sums, table, _⟩ := prudent
    intro expansion expands
    cases expands with
    | mallocFixed | reallocFixed | mallocLarge | resumeLarge => exact fun _ => sums
    | mallocSmall | resumeSmall => exact ⟨fun _ => sums, fun _ => .inl table⟩
  rounding _ _ _ := prudent.2.2

private def expandingEvents : List Event :=
  [allocateMarkStack, .mallocLarge 5000, .mallocSmall 16, .free 1048592,
    .collect ⟨[], .normal, [], true, 0⟩, .mallocSmall 24]

private def roomy : Space :=
  { start with
    limit := 2 ^ 26
    answers := [some 1048576, some 8388608, some 16777216] }

theorem limit_kept_by_careful_runs_markStack :
    ∃ past space, past.map Prod.snd = expandingEvents ∧ Trace exec roomy past space ∧
      space.obtained ≤ space.limit ∧
      space.obtained = space.smallSize + space.large.size + space.fixed.size ∧
      ∀ expansion next, space.Careful expansion →
        space.expand expansion = some (next, true) → Unchanged space next := by
  have runs : (expandingEvents.foldlM (fun space event =>
      if Prudent space event then exec space event else none) roomy).isSome = true := by
    decide +kernel
  obtain ⟨space, run⟩ := Option.isSome_iff_exists.mp runs
  obtain ⟨past, events, trace, prudent⟩ := Trace.start.checked nofun run
  have careful : ∀ step ∈ past, CarefulEvent step.1 step.2 :=
    fun step member => careful_of_prudent (prudent step member)
  exact ⟨past, space, events, trace, limit_kept_by_careful_runs space
    (trace.reachable careful ⟨rfl, rfl, rfl, rfl, rfl, rfl, by decide⟩)⟩

private def lackingCollection : Collection where
  marked := []
  sweeping := .normal
  dead := []
  lack := true
  amount := 0

/-- The first garbage collection for lack of space rounds the limit up to zero. -/
theorem limit_wraps_when_rounded :
    ¬ ∀ space, Reachable Initial (Step fun _ _ => True) space →
      space.obtained ≤ space.limit := by
  intro claim
  have ran : (((start.exec allocateMarkStack).bind
      (·.exec (.collect lackingCollection))).map fun space =>
        (space.obtained, space.limit)) = some (gcRegionSize, 0) := by decide +kernel
  obtain ⟨after, run, totals⟩ := Option.map_eq_some_iff.mp ran
  obtain ⟨space, first, second⟩ := Option.bind_eq_some_iff.mp run
  obtain ⟨obtained, limit⟩ := Prod.mk.inj totals
  have kept := claim after (((Reachable.start start_initial).tail
    ⟨allocateMarkStack, trivial, first⟩).tail ⟨.collect lackingCollection, trivial, second⟩)
  rw [obtained, limit] at kept
  exact absurd kept (by decide)

end Space

end LaTTe.Gc
