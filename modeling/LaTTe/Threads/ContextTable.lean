import LaTTe.Data.Transition
import Mathlib.Logic.Function.Basic

namespace LaTTe.Threads.ContextTable

open LaTTe.Data

/-! The table of thread contexts.  The index of a thread's context is its id. -/

def maxTCtx : Nat := 128

inductive Status where
  | suspended
  | running
  | dead
  deriving DecidableEq

structure Ctx where
  address : Nat
  status : Status

structure Contexts (Thread : Type) where
  threadContext : List (Option Ctx)
  maxNumberOfThreads : Nat
  numberOfThreads : Nat
  ntid : Nat
  privateInfo : Thread → Nat

namespace Contexts

variable {Thread : Type}

def grow (s : Contexts Thread) : Contexts Thread :=
  if s.maxNumberOfThreads ≤ s.numberOfThreads + 1 then
    { s with
      threadContext :=
        s.threadContext.take s.maxNumberOfThreads ++ List.replicate maxTCtx none
      maxNumberOfThreads := s.maxNumberOfThreads + maxTCtx }
  else
    s

def nextId (maxNumberOfThreads ntid : Nat) : Nat :=
  if ntid + 1 = maxNumberOfThreads then 1 else ntid + 1

/-- The loop of `allocThreadCtx`.  There is no result behind the end of the table. -/
def search (threadContext : List (Option Ctx)) (maxNumberOfThreads : Nat) :
    Nat → Nat → Option Nat
  | 0, _ => none
  | fuel + 1, ntid =>
      let ntid := nextId maxNumberOfThreads ntid
      match threadContext[ntid]? with
      | none => none
      | some none => some ntid
      | some (some _) => search threadContext maxNumberOfThreads fuel ntid

def assign [DecidableEq Thread] (s : Contexts Thread) (tid : Thread) (ntid : Nat) (ctx : Ctx) :
    Contexts Thread :=
  { s with
    threadContext := s.threadContext.set ntid (some ctx)
    ntid := ntid
    numberOfThreads := s.numberOfThreads + 1
    privateInfo := Function.update s.privateInfo tid ntid }

/-- `address` is what `newThreadCtx` returns. -/
def allocThreadCtx [DecidableEq Thread] (fuel : Nat) (s : Contexts Thread) (tid : Thread)
    (address : Nat) : Option (Contexts Thread) := do
  let s := s.grow
  let ntid ← search s.threadContext s.maxNumberOfThreads fuel s.ntid
  some (s.assign tid ntid ⟨address, .suspended⟩)

/-- `THREAD_CREATE`, up to the fields that are no part of the table. -/
def create [DecidableEq Thread] (fuel : Nat) (s : Contexts Thread) (tid : Thread)
    (address : Nat) : Option (Contexts Thread) :=
  if s.privateInfo tid = 0 then allocThreadCtx fuel s tid address else none

/-- `killThread`: the context stays until the thread is garbage. -/
def kill (s : Contexts Thread) (tid : Thread) : Option (Contexts Thread) :=
  match s.threadContext[s.privateInfo tid]? with
  | some (some ctx) =>
      some { s with
        threadContext :=
          s.threadContext.set (s.privateInfo tid) (some { ctx with status := .dead }) }
  | _ => none

/-- `THREAD_FREE`, as the finalizer of threads does it. -/
def free [DecidableEq Thread] (s : Contexts Thread) (tid : Thread) : Contexts Thread :=
  if s.privateInfo tid = 0 then
    s
  else
    { s with
      threadContext := s.threadContext.set (s.privateInfo tid) none
      numberOfThreads := s.numberOfThreads - 1
      privateInfo := Function.update s.privateInfo tid 0 }

def Initial (s : Contexts Thread) : Prop :=
  s.threadContext = [] ∧ s.maxNumberOfThreads = 0 ∧ s.numberOfThreads = 0 ∧ s.ntid = 0 ∧
    ∀ tid, s.privateInfo tid = 0

inductive Step [DecidableEq Thread] (s : Contexts Thread) : Contexts Thread → Prop where
  | create {next : Contexts Thread} (fuel : Nat) (tid : Thread) (address : Nat)
      (created : s.create fuel tid address = some next) : Step s next
  | kill {next : Contexts Thread} (tid : Thread) (killed : s.kill tid = some next) : Step s next
  | free (tid : Thread) : Step s (s.free tid)

structure InStep (s : Contexts Thread) : Prop where
  size : s.threadContext.length = s.maxNumberOfThreads
  reserved : ∀ ctx, s.threadContext[0]? ≠ some (some ctx)
  count : s.threadContext.countP Option.isSome = s.numberOfThreads
  last : s.ntid ≤ s.maxNumberOfThreads - 1
  entry : ∀ tid, s.privateInfo tid ≠ 0 →
    ∃ ctx, s.threadContext[s.privateInfo tid]? = some (some ctx)
  apart : ∀ tid other, s.privateInfo tid ≠ 0 → s.privateInfo tid = s.privateInfo other →
    tid = other

/-! The search comes by each slot but the reserved one. -/

section

variable {slots : List (Option Ctx)} {bound ntid goal : Nat}

theorem nextId_bounds (large : 2 ≤ bound) (last : ntid ≤ bound - 1) :
    1 ≤ nextId bound ntid ∧ nextId bound ntid < bound := by
  rw [nextId]
  split <;> omega

def rounds (bound goal ntid : Nat) : Nat :=
  if ntid < goal then goal - ntid else bound - 1 - ntid + goal

theorem rounds_nextId (positive : 1 ≤ goal) (inside : goal < bound) (last : ntid ≤ bound - 1)
    (other : nextId bound ntid ≠ goal) :
    rounds bound goal (nextId bound ntid) + 1 = rounds bound goal ntid := by
  unfold nextId at other ⊢
  unfold rounds
  rcases Nat.lt_or_ge (ntid + 1) bound with next | wrapped
  · rw [if_neg (Nat.ne_of_lt next)] at other ⊢
    rcases Nat.lt_or_ge ntid goal with before | behind
    · rw [if_pos (by omega), if_pos before]
      omega
    · rw [if_neg (by omega), if_neg (by omega)]
      omega
  · have wrap : ntid + 1 = bound := by omega
    rw [if_pos wrap] at other ⊢
    rw [if_pos (by omega), if_neg (by omega)]
    omega

theorem search_returns {fuel : Nat} (size : slots.length = bound) (positive : 1 ≤ goal)
    (inside : goal < bound) (empty : slots[goal]? = some none) (last : ntid ≤ bound - 1)
    (enough : rounds bound goal ntid ≤ fuel) :
    ∃ found, search slots bound fuel ntid = some found := by
  induction fuel generalizing ntid with
  | zero =>
      unfold rounds at enough
      split at enough <;> omega
  | succ fuel ih =>
      have bounds := nextId_bounds (by omega) last
      rw [search]
      cases slot : slots[nextId bound ntid]? with
      | none =>
          rw [List.getElem?_eq_none_iff] at slot
          omega
      | some entry =>
          cases entry with
          | none => exact ⟨_, rfl⟩
          | some ctx =>
              have other : nextId bound ntid ≠ goal := by
                intro same
                rw [same, empty] at slot
                cases Option.some.inj slot
              have fewer := rounds_nextId positive inside last other
              exact ih (by omega) (by omega)

theorem search_run {fuel found : Nat} (large : 2 ≤ bound) (last : ntid ≤ bound - 1)
    (run : search slots bound fuel ntid = some found) :
    1 ≤ found ∧ found < bound ∧ slots[found]? = some none := by
  induction fuel generalizing ntid with
  | zero => contradiction
  | succ fuel ih =>
      have bounds := nextId_bounds large last
      rw [search] at run
      split at run
      · contradiction
      · rename_i empty
        obtain rfl := Option.some.inj run
        exact ⟨bounds.1, bounds.2, empty⟩
      · exact ih (by omega) run

theorem exists_empty (reserved : ∀ ctx, slots[0]? ≠ some (some ctx))
    (fewer : slots.countP Option.isSome + 1 < slots.length) :
    ∃ goal, 1 ≤ goal ∧ goal < slots.length ∧ slots[goal]? = some none := by
  cases slots with
  | nil => simp at fewer
  | cons first rest =>
      have vacant : first = none := by
        cases first with
        | none => rfl
        | some ctx => exact absurd rfl (reserved ctx)
      subst vacant
      rw [List.countP_cons_of_neg (by simp), List.length_cons, Nat.succ_lt_succ_iff] at fewer
      have some_empty : ¬ ∀ entry ∈ rest, entry.isSome = true := by
        intro full
        rw [List.countP_eq_length.mpr full] at fewer
        exact Nat.lt_irrefl _ fewer
      simp only [not_forall, Bool.not_eq_true, Option.isSome_eq_false_iff,
        Option.isNone_iff_eq_none] at some_empty
      obtain ⟨entry, member, rfl⟩ := some_empty
      obtain ⟨i, inside, here⟩ := List.getElem_of_mem member
      exact ⟨i + 1, by omega, Nat.succ_lt_succ inside, by
        rw [List.getElem?_cons_succ, List.getElem?_eq_getElem inside, here]⟩

end

variable {s next : Contexts Thread} {tid : Thread} {address fuel : Nat}

namespace InStep

theorem of_initial (initial : s.Initial) : s.InStep := by
  obtain ⟨slots, size, count, last, ids⟩ := initial
  constructor
  · rw [slots, size]
    rfl
  · rw [slots]
    exact fun ctx => nofun
  · rw [slots, count]
    rfl
  · rw [last]
    exact Nat.zero_le _
  · exact fun tid used => absurd (ids tid) used
  · exact fun tid _ used => absurd (ids tid) used

theorem count_le (inStep : s.InStep) : s.numberOfThreads ≤ s.maxNumberOfThreads := by
  rw [← inStep.count, ← inStep.size]
  exact List.countP_le_length

theorem grow_kept (inStep : s.InStep) :
    s.grow.privateInfo = s.privateInfo ∧
      ∀ i < s.threadContext.length, s.grow.threadContext[i]? = s.threadContext[i]? := by
  rw [Contexts.grow]
  split
  · refine ⟨rfl, fun i below => ?_⟩
    rw [List.take_of_length_le (Nat.le_of_eq inStep.size), List.getElem?_append_left below]
  · exact ⟨rfl, fun _ _ => rfl⟩

theorem grow_room (inStep : s.InStep) :
    s.grow.numberOfThreads + 1 < s.grow.maxNumberOfThreads ∧
      s.grow.maxNumberOfThreads ≤ s.maxNumberOfThreads + maxTCtx := by
  have count := inStep.count_le
  rw [Contexts.grow]
  split
  · refine ⟨?_, Nat.le_refl _⟩
    change s.numberOfThreads + 1 < s.maxNumberOfThreads + 128
    omega
  · exact ⟨by omega, Nat.le_add_right _ _⟩

theorem grow (inStep : s.InStep) : s.grow.InStep := by
  rw [Contexts.grow]
  split
  · have all := List.take_of_length_le (Nat.le_of_eq inStep.size)
    constructor
    · change (s.threadContext.take s.maxNumberOfThreads ++ List.replicate maxTCtx none).length =
        s.maxNumberOfThreads + maxTCtx
      rw [all, List.length_append, List.length_replicate, inStep.size]
    · intro ctx
      change (s.threadContext.take s.maxNumberOfThreads ++ List.replicate maxTCtx none)[0]? ≠ _
      rw [all, List.getElem?_append]
      split
      · exact inStep.reserved ctx
      · rw [List.getElem?_replicate]
        split <;> exact nofun
    · change (s.threadContext.take s.maxNumberOfThreads ++ List.replicate maxTCtx none).countP
        Option.isSome = s.numberOfThreads
      rw [all, List.countP_append, inStep.count, List.countP_replicate]
      rfl
    · exact Nat.le_trans inStep.last (Nat.sub_le_sub_right (Nat.le_add_right _ _) 1)
    · intro tid used
      obtain ⟨ctx, entry⟩ := inStep.entry tid used
      refine ⟨ctx, ?_⟩
      change (s.threadContext.take s.maxNumberOfThreads ++
        List.replicate maxTCtx none)[s.privateInfo tid]? = _
      rw [all, List.getElem?_append_left (List.getElem?_eq_some_iff.mp entry).1, entry]
    · exact inStep.apart
  · exact inStep

theorem ne_of_empty (inStep : s.InStep) {i : Nat} (positive : 1 ≤ i)
    (empty : s.threadContext[i]? = some none) (tid : Thread) : s.privateInfo tid ≠ i := by
  intro same
  obtain ⟨ctx, entry⟩ := inStep.entry tid (by omega)
  rw [same, empty] at entry
  cases Option.some.inj entry

theorem isSome_of_entry {slots : List (Option Ctx)} {i : Nat} {ctx : Ctx}
    (entry : slots[i]? = some (some ctx)) :
    ∃ inside : i < slots.length, slots[i].isSome = true := by
  obtain ⟨inside, here⟩ := List.getElem?_eq_some_iff.mp entry
  exact ⟨inside, by rw [here]; rfl⟩

theorem kill (inStep : s.InStep) (killed : s.kill tid = some next) : next.InStep := by
  rw [Contexts.kill] at killed
  split at killed
  · rename_i ctx entry
    obtain rfl := Option.some.inj killed
    obtain ⟨inside, full⟩ := isSome_of_entry entry
    have slot : ∀ (i : Nat) (c : Ctx), (s.threadContext.set (s.privateInfo tid)
        (some { ctx with status := .dead }))[i]? = some (some c) →
        ∃ old, s.threadContext[i]? = some (some old) := by
      intro i c found
      rw [List.getElem?_set] at found
      split at found
      · rename_i same
        exact ⟨ctx, same ▸ entry⟩
      · exact ⟨c, found⟩
    constructor
    · exact (List.length_set).trans inStep.size
    · intro c found
      obtain ⟨old, before⟩ := slot 0 c found
      exact inStep.reserved old before
    · change (s.threadContext.set _ _).countP Option.isSome = s.numberOfThreads
      have positive : 0 < s.threadContext.countP Option.isSome :=
        List.countP_pos_iff.mpr ⟨_, List.getElem_mem inside, full⟩
      rw [List.countP_set inside, full, ← inStep.count]
      simp only [if_true, Option.isSome_some]
      omega
    · exact inStep.last
    · intro other used
      obtain ⟨old, before⟩ := inStep.entry other used
      change ∃ c, (s.threadContext.set (s.privateInfo tid)
        (some { ctx with status := .dead }))[s.privateInfo other]? = some (some c)
      rw [List.getElem?_set]
      split
      · exact ⟨_, rfl⟩
      · exact ⟨old, before⟩
    · exact inStep.apart
  · contradiction

variable [DecidableEq Thread]

/-- Filling an empty slot for a thread without one. -/
theorem assign (inStep : s.InStep) {i : Nat} {ctx : Ctx} (positive : 1 ≤ i)
    (inside : i < s.maxNumberOfThreads) (empty : s.threadContext[i]? = some none)
    (new : s.privateInfo tid = 0) :
    (s.assign tid i ctx).InStep := by
  have below : i < s.threadContext.length := by rw [inStep.size]; exact inside
  have here := (List.getElem?_eq_some_iff.mp empty).2
  have others : ∀ other, other ≠ tid → s.privateInfo other ≠ i :=
    fun other _ => inStep.ne_of_empty positive empty other
  constructor
  · exact (List.length_set).trans inStep.size
  · intro other
    change (s.threadContext.set i (some ctx))[0]? ≠ _
    rw [List.getElem?_set_ne (by omega)]
    exact inStep.reserved other
  · change (s.threadContext.set i (some ctx)).countP Option.isSome = s.numberOfThreads + 1
    rw [List.countP_set below, here, inStep.count]
    rfl
  · exact Nat.le_sub_one_of_lt inside
  · intro other
    change Function.update s.privateInfo tid i other ≠ 0 →
      ∃ c, (s.threadContext.set i (some ctx))[Function.update s.privateInfo tid i other]? = _
    rcases eq_or_ne other tid with rfl | different
    · rw [Function.update_self, List.getElem?_set_self below]
      exact fun _ => ⟨ctx, rfl⟩
    · rw [Function.update_of_ne different, List.getElem?_set_ne (others other different).symm]
      exact inStep.entry other
  · intro first second
    change Function.update s.privateInfo tid i first ≠ 0 →
      Function.update s.privateInfo tid i first = Function.update s.privateInfo tid i second → _
    rcases eq_or_ne first tid with rfl | different
    · rcases eq_or_ne second first with rfl | distinct
      · exact fun _ _ => rfl
      · rw [Function.update_self, Function.update_of_ne distinct]
        exact fun _ same => absurd same.symm (others second distinct)
    · rw [Function.update_of_ne different]
      rcases eq_or_ne second tid with rfl | distinct
      · rw [Function.update_self]
        exact fun _ same => absurd same (others first different)
      · rw [Function.update_of_ne distinct]
        exact inStep.apart first second

theorem free (inStep : s.InStep) (tid : Thread) : (s.free tid).InStep := by
  rw [Contexts.free]
  split
  · exact inStep
  · rename_i used
    obtain ⟨ctx, entry⟩ := inStep.entry tid used
    obtain ⟨inside, full⟩ := isSome_of_entry entry
    constructor
    · exact (List.length_set).trans inStep.size
    · intro c
      change (s.threadContext.set (s.privateInfo tid) none)[0]? ≠ _
      rw [List.getElem?_set_ne used]
      exact inStep.reserved c
    · change (s.threadContext.set (s.privateInfo tid) none).countP Option.isSome =
        s.numberOfThreads - 1
      rw [List.countP_set inside, full, inStep.count]
      rfl
    · exact inStep.last
    · intro other
      change Function.update s.privateInfo tid 0 other ≠ 0 →
        ∃ c, (s.threadContext.set (s.privateInfo tid) none)[
          Function.update s.privateInfo tid 0 other]? = _
      rcases eq_or_ne other tid with rfl | different
      · rw [Function.update_self]
        exact fun zero => absurd rfl zero
      · rw [Function.update_of_ne different]
        intro live
        rw [List.getElem?_set_ne fun same => different (inStep.apart tid other used same).symm]
        exact inStep.entry other live
    · intro first second
      change Function.update s.privateInfo tid 0 first ≠ 0 →
        Function.update s.privateInfo tid 0 first =
          Function.update s.privateInfo tid 0 second → _
      rcases eq_or_ne first tid with rfl | different
      · rw [Function.update_self]
        exact fun zero => absurd rfl zero
      · rw [Function.update_of_ne different]
        rcases eq_or_ne second tid with rfl | distinct
        · rw [Function.update_self]
          exact fun live same => absurd same live
        · rw [Function.update_of_ne distinct]
          exact inStep.apart first second

theorem of_allocThreadCtx (inStep : s.InStep)
    (run : s.allocThreadCtx fuel tid address = some next) :
    ∃ i, 1 ≤ i ∧ i < s.grow.maxNumberOfThreads ∧ s.grow.threadContext[i]? = some none ∧
      next = s.grow.assign tid i ⟨address, .suspended⟩ := by
  rw [allocThreadCtx, Option.bind_eq_bind, Option.bind_eq_some_iff] at run
  obtain ⟨i, found, run⟩ := run
  obtain rfl := Option.some.inj run
  have room := inStep.grow_room.1
  obtain ⟨positive, inside, empty⟩ := search_run (by omega) inStep.grow.last found
  exact ⟨i, positive, inside, empty, rfl⟩

theorem step (inStep : s.InStep) (taken : Step s next) : next.InStep := by
  cases taken with
  | create fuel tid address created =>
      rw [create] at created
      split at created
      · rename_i new
        obtain ⟨i, positive, inside, empty, rfl⟩ := inStep.of_allocThreadCtx created
        refine inStep.grow.assign positive inside empty ?_
        rw [inStep.grow_kept.1]
        exact new
      · contradiction
  | kill tid killed => exact inStep.kill killed
  | free tid => exact inStep.free tid

end InStep

structure Allocated (s next : Contexts Thread) (tid : Thread) (address : Nat) : Prop where
  positive : 1 ≤ next.privateInfo tid
  inside : next.privateInfo tid < next.maxNumberOfThreads
  size : next.threadContext.length = next.maxNumberOfThreads
  unused : ∀ other, s.privateInfo other ≠ next.privateInfo tid
  context : next.threadContext[next.privateInfo tid]? = some (some ⟨address, .suspended⟩)
  id : ∀ other ≠ tid, next.privateInfo other = s.privateInfo other
  kept : ∀ other ≠ tid, s.privateInfo other ≠ 0 →
    next.threadContext[s.privateInfo other]? = s.threadContext[s.privateInfo other]?

variable [DecidableEq Thread]

theorem InStep.allocated (inStep : s.InStep)
    (run : s.allocThreadCtx fuel tid address = some next) : Allocated s next tid address := by
  obtain ⟨i, positive, inside, empty, rfl⟩ := inStep.of_allocThreadCtx run
  obtain ⟨ids, slots⟩ := inStep.grow_kept
  have unused : ∀ other, s.privateInfo other ≠ i := by
    intro other
    rw [← ids]
    exact inStep.grow.ne_of_empty positive empty other
  have given : (s.grow.assign tid i ⟨address, .suspended⟩).privateInfo tid = i :=
    Function.update_self ..
  constructor
  · rw [given]
    exact positive
  · rw [given]
    exact inside
  · exact (List.length_set).trans inStep.grow.size
  · rw [given]
    exact unused
  · rw [given]
    exact List.getElem?_set_self (inStep.grow.size.symm ▸ inside)
  · intro other different
    exact (Function.update_of_ne different ..).trans (congrFun ids other)
  · intro other _ used
    obtain ⟨ctx, entry⟩ := inStep.entry other used
    change (s.grow.threadContext.set i _)[s.privateInfo other]? = _
    rw [List.getElem?_set_ne (unused other).symm,
      slots _ (List.getElem?_eq_some_iff.mp entry).1]

theorem inStep_of_reachable (reached : Reachable Initial Step s) : s.InStep :=
  reached.invariant InStep (fun _ => InStep.of_initial) fun _ _ inStep => inStep.step

/-- The search ends as soon as the rounds suffice for once around the grown table. -/
theorem allocThreadCtx_returns (reached : Reachable Initial Step s) (tid : Thread)
    (address fuel : Nat) (enough : s.maxNumberOfThreads + maxTCtx ≤ fuel) :
    ∃ next, s.allocThreadCtx fuel tid address = some next ∧ Allocated s next tid address := by
  have inStep := inStep_of_reachable reached
  have grown := inStep.grow
  obtain ⟨room, size⟩ := inStep.grow_room
  obtain ⟨goal, positive, inside, empty⟩ := exists_empty grown.reserved
    (by rw [grown.count, grown.size]; exact room)
  rw [grown.size] at inside
  have last := grown.last
  obtain ⟨i, found⟩ := @search_returns _ _ _ _ fuel grown.size positive inside empty last (by
    unfold rounds
    split <;> omega)
  have run : s.allocThreadCtx fuel tid address =
      some (s.grow.assign tid i ⟨address, .suspended⟩) := by
    rw [allocThreadCtx, Option.bind_eq_bind, found, Option.bind_some]
  exact ⟨_, run, inStep.allocated run⟩

inductive Event (Thread : Type) where
  | create (tid : Thread) (address : Nat)
  | kill (tid : Thread)
  | free (tid : Thread)

def exec (fuel : Nat) (s : Contexts Thread) : Event Thread → Option (Contexts Thread)
  | .create tid address => s.create fuel tid address
  | .kill tid => s.kill tid
  | .free tid => some (s.free tid)

theorem reachable_of_exec (reached : Reachable Initial Step s) {events : List (Event Thread)}
    (run : events.foldlM (exec fuel) s = some next) : Reachable Initial Step next := by
  induction events generalizing s with
  | nil => exact Option.some.inj run ▸ reached
  | cons event rest ih =>
      rw [List.foldlM_cons, Option.bind_eq_bind, Option.bind_eq_some_iff] at run
      obtain ⟨later, taken, onward⟩ := run
      have step : Step s later := by
        cases event with
        | create tid address => exact .create fuel tid address taken
        | kill tid => exact .kill tid taken
        | free tid => exact Option.some.inj taken ▸ .free tid
      exact ih (reached.tail step) onward

def noThreads : Contexts Nat where
  threadContext := []
  maxNumberOfThreads := 0
  numberOfThreads := 0
  ntid := 0
  privateInfo := fun _ => 0

def fullTable : List (Event Nat) :=
  (List.range' 1 127).map (fun tid => .create tid (4096 * tid)) ++
    [.kill 3, .kill 7, .free 7, .create 128 (4096 * 128)]

theorem allocThreadCtx_returns_full : ∃ s next : Contexts Nat, Reachable Initial Step s ∧
    s.numberOfThreads = 127 ∧ s.maxNumberOfThreads = 128 ∧ s.privateInfo 7 = 0 ∧
    s.privateInfo 128 = 7 ∧ (s.threadContext[3]?.join.map Ctx.status) = some .dead ∧
    s.allocThreadCtx 256 129 (4096 * 129) = some next ∧ Allocated s next 129 (4096 * 129) := by
  have runs : (fullTable.foldlM (exec 128) noThreads).map (fun s =>
      (s.numberOfThreads, s.maxNumberOfThreads, s.privateInfo 7, s.privateInfo 128,
        s.threadContext[3]?.join.map Ctx.status)) = some (127, 128, 0, 7, some .dead) := by
    decide +kernel
  obtain ⟨s, run, facts⟩ := Option.map_eq_some_iff.mp runs
  simp only [Prod.mk.injEq] at facts
  obtain ⟨number, size, freed, reused, dead⟩ := facts
  have reached := reachable_of_exec (.start ⟨rfl, rfl, rfl, rfl, fun _ => rfl⟩) run
  obtain ⟨next, taken, allocated⟩ := allocThreadCtx_returns reached 129 (4096 * 129) 256
    (by rw [size]; decide)
  exact ⟨s, next, reached, number, size, freed, reused, dead, taken, allocated⟩

end Contexts

end LaTTe.Threads.ContextTable
