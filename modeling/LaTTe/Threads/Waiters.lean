import LaTTe.Threads.Monitor

namespace LaTTe.Threads.Monitor

open LaTTe.Data
open LaTTe.Sparc (Word)
open LaTTe.Threads.Locks (ownerIdMask semaphoreMask)

/-! No thread that waits for the monitor is forgotten: whoever gives the monitor up finds the bit
of the waiters set exactly while there are any, and wakes one of them. -/

/-- `HAS_WAITERS_MASK`. -/
def hasWaiters (info : Word) : Bool := info.getLsbD 16

/-- A thread that has been put in line for the monitor is not resumed from elsewhere, and one that
dies in `_waitCond` takes a word with it whose bit is right. -/
def State.Attended (state : State) (t : ThreadId) : Action → Prop
  | .wake => t ∉ state.lock.waiterQueue
  | .goOn true => ∀ saved depth, state.place t = .waiting saved depth →
      count state.lock.lockInfo ≠ 0 ∨
        (hasWaiters saved = true ↔ state.lock.waiterQueue ≠ [])
  | _ => True

/-- A careful step that does not take a waiter out of its line. -/
def AttendedStep (state next : State) : Prop :=
  ∃ t action, state.exec t action = some next ∧
    count state.lock.lockInfo + 1 < 2 ^ 15 ∧
    ((∃ operation, action = .perform operation) → state.held t = 0 →
      count state.lock.lockInfo = 0 ∧ lower state.lock.lockInfo ≠ t) ∧
    state.Attended t action

structure Queued (state : State) : Prop where
  distinct : (state.lock.waiterQueue ++ state.lock.condVarQueue).Nodup
  blocked : ∀ t, t ∈ state.lock.waiterQueue ++ state.lock.condVarQueue ↔
    state.blockQueue t ≠ none
  waiter : ∀ t, state.blockQueue t = some .waiter → t ∈ state.lock.waiterQueue
  inside : ∀ t, state.blockQueue t ≠ none → state.place t ≠ .outside

def State.Coming (state : State) : Prop :=
  ∃ t, state.place t ≠ .outside ∧ state.blockQueue t = none

structure Served (state : State) : Prop where
  queued : Queued state
  bit : hasWaiters state.lock.lockInfo = true ↔ state.lock.waiterQueue ≠ []
  coming : state.lock.waiterQueue ≠ [] → count state.lock.lockInfo ≠ 0 ∨ state.Coming
  deep : ∀ t saved depth, state.place t = .waiting saved depth → depth ≠ 0

section

variable (info : Word) (value : BitVec 16)

theorem hasWaiters_iff : hasWaiters info = true ↔ info.toNat / 2 ^ 16 % 2 = 1 := by
  rw [hasWaiters, ← BitVec.testBit_toNat, Nat.testBit_eq_decide_div_mod_eq, decide_eq_true_eq]

theorem hasWaiters_or : hasWaiters (info ||| hasWaitersMask) = true := by
  rw [hasWaiters, BitVec.getLsbD_or]
  exact Bool.or_true _

theorem hasWaiters_and : hasWaiters (info &&& ~~~hasWaitersMask) = false := by
  rw [hasWaiters, BitVec.getLsbD_and]
  exact Bool.and_false _

theorem hasWaiters_cleared :
    hasWaiters (info &&& ~~~(semaphoreMask ||| ownerIdMask)) = hasWaiters info := by
  rw [hasWaiters, BitVec.getLsbD_and]
  exact Bool.and_true _

theorem hasWaiters_mask : info &&& hasWaitersMask ≠ 0 ↔ hasWaiters info = true := by
  have mask : hasWaitersMask = BitVec.twoPow 32 16 := by decide
  rw [mask, BitVec.and_twoPow, hasWaiters]
  split
  · next set => exact iff_of_true (by decide) set
  · next clear => exact iff_of_false (by simp) clear

theorem hasWaiters_setLower : hasWaiters (setLower info value) = hasWaiters info := by
  have := value.isLt
  rw [Bool.eq_iff_iff, hasWaiters_iff, hasWaiters_iff, toNat_setLower]
  omega

theorem hasWaiters_raise :
    hasWaiters (setUpper info (upper info + 2)) = hasWaiters info := by
  have two : (2 : BitVec 16).toNat = 2 := rfl
  rw [Bool.eq_iff_iff, hasWaiters_iff, hasWaiters_iff, toNat_setUpper, BitVec.toNat_add,
    toNat_upper, two]
  omega

theorem hasWaiters_lower :
    hasWaiters (setUpper info (upper info - 2)) = hasWaiters info := by
  have two : (2 : BitVec 16).toNat = 2 := rfl
  rw [Bool.eq_iff_iff, hasWaiters_iff, hasWaiters_iff, toNat_setUpper, BitVec.toNat_sub,
    toNat_upper, two]
  omega

theorem wakes_iff : info >>> 16 = 1 ↔ count info = 0 ∧ hasWaiters info = true := by
  have one : (1 : Word).toNat = 1 := rfl
  have := info.isLt
  rw [← BitVec.toNat_inj, BitVec.toNat_ushiftRight, Nat.shiftRight_eq_div_pow, one,
    hasWaiters_iff, count]
  omega

end

namespace Queued

variable {state next : State} {t u : ThreadId}

theorem runs (queued : Queued state) (outside : state.place t = .outside) :
    state.blockQueue t = none := by
  by_contra blocked
  exact queued.inside t blocked outside

theorem leave (queued : Queued state) (running : state.blockQueue t = none)
    (waiters : next.lock.waiterQueue = state.lock.waiterQueue)
    (waiting : next.lock.condVarQueue = state.lock.condVarQueue)
    (blocked : next.blockQueue = state.blockQueue)
    (places : ∀ u, u ≠ t → next.place u = state.place u) : Queued next := by
  constructor
  · rw [waiters, waiting]
    exact queued.distinct
  · rw [waiters, waiting, blocked]
    exact queued.blocked
  · rw [waiters, blocked]
    exact queued.waiter
  · intro u suspended
    rw [blocked] at suspended
    have other : u ≠ t := by
      rintro rfl
      exact suspended running
    rw [places u other]
    exact queued.inside u suspended

/-- A thread that runs is suspended on one of the queues. -/
theorem suspend (queued : Queued state) (running : state.blockQueue t = none) {queue : Queue}
    (blocked : next.blockQueue = Function.update state.blockQueue t (some queue))
    (waiters : next.lock.waiterQueue =
      if queue = .waiter then t :: state.lock.waiterQueue else state.lock.waiterQueue)
    (waiting : next.lock.condVarQueue =
      if queue = .waiter then state.lock.condVarQueue else t :: state.lock.condVarQueue)
    (here : next.place t ≠ .outside)
    (places : ∀ u, u ≠ t → next.place u = state.place u) : Queued next := by
  have absent : t ∉ state.lock.waiterQueue ++ state.lock.condVarQueue :=
    fun member => (queued.blocked t).mp member running
  have order : (next.lock.waiterQueue ++ next.lock.condVarQueue).Perm
      (t :: (state.lock.waiterQueue ++ state.lock.condVarQueue)) := by
    rw [waiters, waiting]
    split
    · exact .refl _
    · exact List.perm_middle
  constructor
  · rw [order.nodup_iff]
    exact List.nodup_cons.mpr ⟨absent, queued.distinct⟩
  · intro u
    rw [order.mem_iff, List.mem_cons, blocked, queued.blocked]
    rcases eq_or_ne u t with rfl | other
    · simp
    · simp [other]
  · intro u suspended
    rw [blocked] at suspended
    rw [waiters]
    rcases eq_or_ne u t with rfl | other
    · rw [Function.update_self] at suspended
      rw [if_pos (Option.some.inj suspended)]
      exact List.mem_cons_self
    · rw [Function.update_of_ne other] at suspended
      have member := queued.waiter u suspended
      split
      · exact List.mem_cons_of_mem _ member
      · exact member
  · intro u suspended
    rcases eq_or_ne u t with rfl | other
    · exact here
    · rw [blocked, Function.update_of_ne other] at suspended
      rw [places u other]
      exact queued.inside u suspended

theorem move (queued : Queued state)
    (order : (next.lock.waiterQueue ++ next.lock.condVarQueue).Perm
      (state.lock.waiterQueue ++ state.lock.condVarQueue))
    (more : state.lock.waiterQueue ⊆ next.lock.waiterQueue)
    (blocked : next.blockQueue = state.blockQueue) (places : next.place = state.place) :
    Queued next := by
  constructor
  · rw [order.nodup_iff]
    exact queued.distinct
  · intro u
    rw [order.mem_iff, blocked]
    exact queued.blocked u
  · intro u suspended
    rw [blocked] at suspended
    exact more (queued.waiter u suspended)
  · rw [blocked, places]
    exact queued.inside

theorem release (queued : Queued state)
    (order : (t :: (next.lock.waiterQueue ++ next.lock.condVarQueue)).Perm
      (state.lock.waiterQueue ++ state.lock.condVarQueue))
    (waiters : ∀ u, u ≠ t → u ∈ state.lock.waiterQueue → u ∈ next.lock.waiterQueue)
    (blocked : next.blockQueue = Function.update state.blockQueue t none)
    (places : next.place = state.place) : Queued next := by
  obtain ⟨absent, distinct⟩ := List.nodup_cons.mp (order.nodup_iff.mpr queued.distinct)
  have others {u : ThreadId} (suspended : next.blockQueue u ≠ none) :
      u ≠ t ∧ next.blockQueue u = state.blockQueue u := by
    rw [blocked] at suspended ⊢
    rcases eq_or_ne u t with rfl | other
    · exact absurd (Function.update_self _ _ _) suspended
    · exact ⟨other, Function.update_of_ne other _ _⟩
  refine ⟨distinct, ?_, ?_, ?_⟩
  · intro u
    have before := (order.mem_iff.trans (queued.blocked u))
    rw [List.mem_cons] at before
    rcases eq_or_ne u t with rfl | other
    · exact iff_of_false absent fun suspended => (others suspended).1 rfl
    · rw [blocked, Function.update_of_ne other, ← before, or_iff_right other]
  · intro u suspended
    obtain ⟨other, same⟩ := others (suspended ▸ Option.some_ne_none _)
    exact waiters u other (queued.waiter u (same.symm.trans suspended))
  · intro u suspended
    obtain ⟨_, same⟩ := others suspended
    rw [places]
    exact queued.inside u (same ▸ suspended)

theorem give (queued : Queued state) (t : ThreadId) :
    Queued { state with held := Function.update state.held t (state.held t - 1) } :=
  queued.move (.refl _) (List.Subset.refl _) rfl rfl

end Queued

theorem State.resume_of_not_mem {state : State} {u : ThreadId}
    (blocked : state.blockQueue u ≠ none)
    (absent : u ∉ state.lock.waiterQueue ++ state.lock.condVarQueue) :
    state.resume u =
      { state with blockQueue := Function.update state.blockQueue u none } := by
  rw [List.mem_append, not_or] at absent
  unfold State.resume
  split
  · next none => exact absurd none blocked
  · split
    · rw [List.erase_of_not_mem absent.1]
    · rw [List.erase_of_not_mem absent.2]

theorem Queued.wakeUp {state : State} {u : ThreadId} {rest : List ThreadId}
    (queued : Queued state) (first : state.lock.waiterQueue = u :: rest) (word : Word) :
    ∃ next, ({ state with lock := { state.lock with waiterQueue := rest, lockInfo := word } } :
        State).resume u = next ∧ Queued next ∧ next.lock.waiterQueue = rest ∧
      next.lock.lockInfo = word ∧ next.place = state.place ∧ next.blockQueue u = none ∧
      next.held = state.held ∧ next.place u ≠ .outside := by
  have distinct := queued.distinct
  rw [first, List.cons_append, List.nodup_cons] at distinct
  have blocked : state.blockQueue u ≠ none :=
    (queued.blocked u).mp (first ▸ List.mem_cons_self)
  refine ⟨_, State.resume_of_not_mem blocked distinct.1, queued.release ?_ ?_ rfl rfl, rfl, rfl,
    rfl, Function.update_self _ _ _, rfl, queued.inside u blocked⟩
  · rw [first]
    exact .refl _
  · intro v other member
    rw [first] at member
    exact List.mem_of_ne_of_mem other member

namespace Served

variable {state : State} {t u : ThreadId} {rest : List ThreadId} {saved : Word} {depth : Nat}
  {result : Result}

theorem take (served : Served state) (running : state.blockQueue t = none) {info : Word}
    (taken : count info ≠ 0)
    (bit : hasWaiters info = true ↔ state.lock.waiterQueue ≠ []) (depth : Nat) :
    Served { state with
      lock := { state.lock with lockInfo := info }
      place := Function.update state.place t .outside
      held := Function.update state.held t depth } where
  queued := served.queued.leave running rfl rfl rfl fun _ other => Function.update_of_ne other _ _
  bit := bit
  coming := fun _ => .inl taken
  deep := fun u saved depth waits =>
    served.deep u saved depth (Encoded.waiting_of_update (by simp) waits)

theorem park (served : Served state) (running : state.blockQueue t = none)
    (taken : count state.lock.lockInfo ≠ 0) {place : ThreadId → Place}
    (here : place t ≠ .outside) (places : ∀ u, u ≠ t → place u = state.place u)
    (deep : ∀ saved depth, place t = .waiting saved depth → depth ≠ 0) :
    Served { state with
      lock := state.lock.waitInQueue t
      place := place
      blockQueue := Function.update state.blockQueue t (some .waiter) } where
  queued := served.queued.suspend running rfl rfl rfl here places
  bit := iff_of_true (hasWaiters_or _) (List.cons_ne_nil _ _)
  coming := fun _ => .inl (by
    dsimp only [Lock.waitInQueue, Lock.setHasWaiters]
    rwa [count_or])
  deep := by
    intro u saved depth waits
    rcases eq_or_ne u t with rfl | other
    · exact deep saved depth waits
    · exact served.deep u saved depth ((places u other).symm.trans waits)

theorem enter (served : Served state) (fits : count state.lock.lockInfo + 1 < 2 ^ 15)
    (running : state.blockQueue t = none) : Served (state.enter t) := by
  unfold State.enter Lock.lockMutex
  by_cases free : state.lock.lockInfo &&& semaphoreMask = 0
  · rw [if_pos free]
    apply served.take running
    · rw [count_raise _ (by rwa [count_setLower])]
      exact Nat.succ_ne_zero _
    · rw [hasWaiters_raise, hasWaiters_setLower]
      exact served.bit
  · rw [if_neg free]
    by_cases owner : state.lock.lockInfo &&& ownerIdMask = t.setWidth 32
    · rw [if_pos owner]
      apply served.take running
      · rw [count_raise _ fits]
        exact Nat.succ_ne_zero _
      · rw [hasWaiters_raise]
        exact served.bit
    · rw [if_neg owner]
      apply served.park running ((Monitor.free_iff _).not.mp free)
      · rw [Function.update_self]
        simp
      · exact fun u other => Function.update_of_ne other _ _
      · intro saved depth waits
        rw [Function.update_self] at waits
        cases waits

theorem woken (queued : Queued state) (first : state.lock.waiterQueue = u :: rest)
    (deep : ∀ t saved depth, state.place t = .waiting saved depth → depth ≠ 0) {word : Word}
    (bit : hasWaiters word = true ↔ rest ≠ []) :
    Served (({ state with
      lock := { state.lock with waiterQueue := rest, lockInfo := word } } : State).resume u) := by
  obtain ⟨next, resumed, queued', waiters, info, places, runs, _, here⟩ :=
    queued.wakeUp first word
  rw [resumed]
  refine ⟨queued', ?_, fun _ => .inr ⟨u, here, runs⟩, ?_⟩
  · rw [info, waiters]
    exact bit
  · rw [places]
    exact deep

theorem unlock (served : Served state) (done : state.lock.unlockMutex = some result) :
    Served (state.finish t .unlock result) := by
  unfold Lock.unlockMutex at done
  dsimp only at done
  split at done
  · have same := hasWaiters_lower state.lock.lockInfo
    split at done
    · next notWakes =>
        obtain rfl := Option.some.inj done
        refine ⟨served.queued.move (.refl _) (List.Subset.refl _) rfl rfl, ?_, ?_, served.deep⟩
        · exact same.symm ▸ served.bit
        · intro waiting
          refine .inl fun free => notWakes ((wakes_iff _).mpr ⟨free, ?_⟩)
          exact same.trans (served.bit.mpr waiting)
    · next wakes =>
        obtain ⟨_, set⟩ := (wakes_iff _).mp (not_not.mp wakes)
        unfold Lock.wakeupWaiter at done
        split at done
        · cases done
        · next thread rest queue =>
            obtain rfl := Option.some.inj done
            refine woken (served.queued.give t) queue served.deep ?_
            dsimp only
            split
            · next last => exact iff_of_false (by decide) (not_not.mpr last)
            · next more => exact iff_of_true set more
  · obtain rfl := Option.some.inj done
    exact served

section

variable (encoded : Encoded state) (served : Served state) (holds : state.held t ≠ 0)

include encoded served holds

theorem wait (outside : state.place t = .outside) (done : state.lock.waitCond t = some result) :
    Served (state.finish t .wait result) := by
  obtain ⟨owner, depth⟩ := encoded.owner_eq holds
  let asleep : State := { state with
    lock := { state.lock with condVarQueue := t :: state.lock.condVarQueue }
    place := Function.update state.place t (.waiting state.lock.lockInfo (state.held t))
    blockQueue := Function.update state.blockQueue t (some .condVar)
    held := Function.update state.held t 0 }
  have queued : Queued asleep := by
    refine served.queued.suspend (served.queued.runs outside) rfl rfl rfl ?_
      fun u other => Function.update_of_ne other _ _
    dsimp only [asleep]
    rw [Function.update_self]
    simp
  have deep : ∀ u saved depth, asleep.place u = .waiting saved depth → depth ≠ 0 := by
    intro u saved depth waits
    dsimp only [asleep] at waits
    rcases eq_or_ne u t with rfl | other
    · rw [Function.update_self] at waits
      cases waits
      exact holds
    · rw [Function.update_of_ne other] at waits
      exact served.deep u saved depth waits
  unfold Lock.waitCond at done
  rw [if_neg (not_not.mpr ((owner_iff _ _).mpr owner))] at done
  dsimp only at done
  split at done
  · next none =>
      obtain rfl := Option.some.inj done
      refine ⟨queued.move (.refl _) (List.Subset.refl _) rfl rfl, ?_, ?_, deep⟩
      · exact (hasWaiters_cleared state.lock.lockInfo).symm ▸ served.bit
      · exact fun waiting => absurd none waiting
  · next thread rest queue =>
      split at done
      · obtain rfl := Option.some.inj done
        refine woken queued queue deep ?_
        split
        · next last => exact iff_of_false (by decide) (not_not.mpr last)
        · next more => exact iff_of_true (by decide) more
      · cases done

theorem signal :
    Served (state.finish t .signal (state.lock.signalCond t)) := by
  obtain ⟨_, depth⟩ := encoded.owner_eq holds
  unfold Lock.signalCond
  split
  · exact served
  · split
    · exact ⟨served.queued.move (.refl _) (List.Subset.refl _) rfl rfl, served.bit,
        served.coming, served.deep⟩
    · next thread rest queue =>
        refine ⟨served.queued.move ?_ (List.subset_cons_self _ _) rfl rfl,
          iff_of_true (hasWaiters_or _) (List.cons_ne_nil _ _), fun _ => .inl ?_, served.deep⟩
        · rw [queue]
          exact List.perm_middle.symm
        · change count (state.lock.lockInfo ||| hasWaitersMask) ≠ 0
          rwa [count_or, depth]

theorem broadcast :
    Served (state.finish t .broadcast (state.lock.broadcastCond t)) := by
  obtain ⟨_, depth⟩ := encoded.owner_eq holds
  unfold Lock.broadcastCond
  split
  · exact served
  · split
    · exact ⟨served.queued.move (.refl _) (List.Subset.refl _) rfl rfl, served.bit,
        served.coming, served.deep⟩
    · next waiting some =>
        refine ⟨served.queued.move ?_ (List.subset_append_right _ _) rfl rfl,
          iff_of_true (hasWaiters_or _) ?_, fun _ => .inl ?_, served.deep⟩
        · change (state.lock.condVarQueue ++ state.lock.waiterQueue ++ []).Perm _
          rw [List.append_nil]
          exact List.perm_append_comm
        · exact List.append_ne_nil_of_left_ne_nil some _
        · change count (state.lock.lockInfo ||| hasWaitersMask) ≠ 0
          rwa [count_or, depth]

theorem perform (outside : state.place t = .outside) {operation : Operation}
    (done : state.lock.perform t operation = some result) :
    Served (state.finish t operation result) := by
  cases operation with
  | unlock => exact served.unlock done
  | wait => exact served.wait encoded holds outside done
  | signal =>
      obtain rfl := Option.some.inj done
      exact served.signal encoded holds
  | broadcast =>
      obtain rfl := Option.some.inj done
      exact served.broadcast encoded holds

end

theorem resumeWait (encoded : Encoded state) (served : Served state)
    (running : state.blockQueue t = none) (place : state.place t = .waiting saved depth)
    {killed : Bool} (attended : state.Attended t (.goOn killed))
    (done : state.lock.resumeWait t saved killed = some result) :
    Served (state.finishWait t depth result) := by
  obtain ⟨_, same⟩ := encoded.waiting t saved depth place
  have deep := served.deep t saved depth place
  unfold Lock.resumeWait at done
  by_cases free : state.lock.lockInfo &&& semaphoreMask = 0
  · rw [if_neg (not_not.mpr free)] at done
    dsimp only at done
    split at done
    · next dies =>
        obtain rfl := Option.some.inj done
        obtain rfl := dies
        have right := (attended saved depth place).resolve_left
          (not_not.mpr ((Monitor.free_iff _).mp free))
        exact served.take running (by rwa [same]) right depth
    · split at done
      · next waiting =>
          split at done
          · obtain rfl := Option.some.inj done
            exact served.take running (by rwa [count_or, same])
              (iff_of_true (hasWaiters_or _) waiting) depth
          · cases done
      · next none =>
          obtain rfl := Option.some.inj done
          exact served.take running (by rwa [count_and, same])
            (iff_of_false (by rw [hasWaiters_and]; exact Bool.false_ne_true) none) depth
  · rw [if_pos free] at done
    obtain rfl := Option.some.inj done
    exact served.park running ((Monitor.free_iff _).not.mp free)
      (by rw [place]; simp) (fun _ _ => rfl) (served.deep t)

theorem wake (served : Served state) (absent : t ∉ state.lock.waiterQueue) :
    Served (state.resume t) := by
  unfold State.resume
  split
  · exact served
  · next queue blocked =>
      cases queue with
      | waiter => exact absurd (served.queued.waiter t blocked) absent
      | condVar =>
          have waits : t ∈ state.lock.condVarQueue := by
            have member := (served.queued.blocked t).mpr (blocked ▸ Option.some_ne_none _)
            exact (List.mem_append.mp member).resolve_left absent
          refine ⟨served.queued.release ?_ (fun _ _ member => member) rfl rfl, served.bit, ?_,
            served.deep⟩
          · exact List.perm_middle.symm.trans ((List.perm_cons_erase waits).symm.append_left _)
          · intro waiting
            refine (served.coming waiting).imp_right ?_
            rintro ⟨u, here, running⟩
            refine ⟨u, here, ?_⟩
            dsimp only
            rcases eq_or_ne u t with rfl | other
            · exact Function.update_self _ _ _
            · rwa [Function.update_of_ne other]

theorem step {next : State} (encoded : Encoded state) (served : Served state)
    (taken : AttendedStep state next) : Served next := by
  obtain ⟨t, action, run, fits, careful, attended⟩ := taken
  cases action with
  | lock =>
      dsimp only [State.exec] at run
      split at run
      · next outside =>
          obtain rfl := Option.some.inj run
          exact served.enter fits (served.queued.runs outside)
      · cases run
  | perform operation =>
      dsimp only [State.exec] at run
      split at run
      · next outside =>
          obtain ⟨result, done, rfl⟩ := Option.map_eq_some_iff.mp run
          rcases Nat.eq_zero_or_pos (state.held t) with none | holds
          · have rejects := (Lock.rejects_iff _ _).mpr (careful ⟨operation, rfl⟩ none)
            obtain rfl := Option.some.inj ((rejects operation).symm.trans done)
            exact served
          · exact served.perform encoded holds.ne' outside done
      · cases run
  | goOn killed =>
      dsimp only [State.exec] at run
      split at run
      · next running =>
          split at run
          · cases run
          · obtain rfl := Option.some.inj run
            exact served.enter fits running
          · next saved depth place =>
              obtain ⟨result, done, rfl⟩ := Option.map_eq_some_iff.mp run
              exact served.resumeWait encoded running place attended done
      · cases run
  | wake =>
      obtain rfl := Option.some.inj run
      exact served.wake attended

/-! No assertion fails, and no queue is found empty. -/

theorem unlock_returns (served : Served state) :
    ∃ result, state.lock.unlockMutex = some result := by
  unfold Lock.unlockMutex
  dsimp only
  split
  · split
    · exact ⟨_, rfl⟩
    · next wakes =>
        obtain ⟨_, set⟩ := (wakes_iff _).mp (not_not.mp wakes)
        have waiting := served.bit.mp ((hasWaiters_lower _).symm.trans set)
        unfold Lock.wakeupWaiter
        split
        · next none => exact absurd none waiting
        · exact ⟨_, rfl⟩
  · exact ⟨_, rfl⟩

theorem wait_returns (served : Served state) (t : ThreadId) :
    ∃ result, state.lock.waitCond t = some result := by
  unfold Lock.waitCond
  split
  · exact ⟨_, rfl⟩
  · dsimp only
    split
    · exact ⟨_, rfl⟩
    · next thread rest queue =>
        have set := served.bit.mpr (queue ▸ List.cons_ne_nil _ _)
        rw [if_pos ((hasWaiters_mask _).mpr ((hasWaiters_cleared _).trans set))]
        exact ⟨_, rfl⟩

theorem perform_returns (served : Served state) (t : ThreadId) (operation : Operation) :
    ∃ result, state.lock.perform t operation = some result := by
  cases operation with
  | unlock => exact served.unlock_returns
  | wait => exact served.wait_returns t
  | signal => exact ⟨_, rfl⟩
  | broadcast => exact ⟨_, rfl⟩

theorem resumeWait_returns (encoded : Encoded state) (served : Served state)
    (place : state.place t = .waiting saved depth) (killed : Bool) :
    ∃ result, state.lock.resumeWait t saved killed = some result := by
  obtain ⟨_, same⟩ := encoded.waiting t saved depth place
  have taken : count saved ≠ 0 := same ▸ served.deep t saved depth place
  unfold Lock.resumeWait
  split
  · exact ⟨_, rfl⟩
  · dsimp only
    rw [if_pos ((Monitor.free_iff saved).not.mpr taken)]
    split
    · exact ⟨_, rfl⟩
    · split
      · exact ⟨_, rfl⟩
      · exact ⟨_, rfl⟩

theorem unlock_wakes (encoded : Encoded state) (served : Served state) (last : state.held t = 1)
    (first : state.lock.waiterQueue = u :: rest) :
    ∃ result, state.lock.unlockMutex = some result ∧
      (state.finish t .unlock result).lock.waiterQueue = rest ∧
      (state.finish t .unlock result).blockQueue u = none := by
  obtain ⟨_, depth⟩ := encoded.owner_eq (last ▸ Nat.one_ne_zero : state.held t ≠ 0)
  have taken : count state.lock.lockInfo ≠ 0 := by omega
  have free : count (setUpper state.lock.lockInfo (upper state.lock.lockInfo - 2)) = 0 := by
    rw [count_lower _ taken, depth, last]
  have set := served.bit.mpr (first ▸ List.cons_ne_nil _ _)
  have wakes := (wakes_iff _).mpr ⟨free, (hasWaiters_lower _).trans set⟩
  obtain ⟨next, resumed, _, waiters, _, _, runs, _, _⟩ := (served.queued.give t).wakeUp first
    (if rest = [] then 0 else setUpper state.lock.lockInfo (upper state.lock.lockInfo - 2))
  refine ⟨.returned { state.lock with
    waiterQueue := rest
    lockInfo := if rest = [] then 0
      else setUpper state.lock.lockInfo (upper state.lock.lockInfo - 2) } (some u), ?_, ?_, ?_⟩
  · rw [Lock.unlockMutex, if_pos ((taken_iff _).mpr taken)]
    dsimp only
    rw [if_neg (not_not.mpr wakes), Lock.wakeupWaiter, first]
  · exact (congrArg (fun after : State => after.lock.waiterQueue) resumed).trans waiters
  · exact (congrArg (fun after : State => after.blockQueue u) resumed).trans runs

end Served

theorem served_of_attended {state : State} (reached : Reachable Initial AttendedStep state) :
    Encoded state ∧ Served state := by
  refine reached.invariant (fun state => Encoded state ∧ Served state) ?_ ?_
  · intro state initial
    refine ⟨encoded_of_initial initial, ?_⟩
    obtain ⟨lock, threads⟩ := initial
    have runs (t : ThreadId) : state.blockQueue t = none := (threads t).2.1
    refine ⟨⟨?_, ?_, ?_, ?_⟩, ?_, ?_, ?_⟩
    · rw [lock]
      exact List.nodup_nil
    · intro t
      rw [lock, runs]
      simp
    · intro t blocked
      rw [runs] at blocked
      cases blocked
    · exact fun t blocked => absurd (runs t) blocked
    · rw [lock]
      decide
    · rw [lock]
      exact fun waiting => absurd rfl waiting
    · intro t saved depth place
      rw [(threads t).1] at place
      cases place
  · rintro state next ⟨encoded, served⟩ taken
    refine ⟨?_, served.step encoded taken⟩
    obtain ⟨t, action, run, fits, careful, _⟩ := taken
    exact encoded.step ⟨t, action, run, fits, careful⟩

/-- In every run in which no waiter is taken out of its line the suspended threads are those on
the two queues, and while there are waiters some thread holds the monitor or is about to run in
one of the operations.  Each operation comes to its end, and the last `_unlockMutex` of the holder
wakes the first waiter. -/
theorem waiters_are_woken (state : State) (reached : Reachable Initial AttendedStep state) :
    (∀ t, state.blockQueue t ≠ none ↔
      t ∈ state.lock.waiterQueue ∨ t ∈ state.lock.condVarQueue) ∧
    (state.lock.waiterQueue ≠ [] → (∃ t, state.held t ≠ 0) ∨ state.Coming) ∧
    (∀ t operation, state.place t = .outside →
      ∃ next, state.exec t (.perform operation) = some next) ∧
    (∀ t killed, state.place t ≠ .outside → state.blockQueue t = none →
      ∃ next, state.exec t (.goOn killed) = some next) ∧
    ∀ t u rest, state.place t = .outside → state.held t = 1 →
      state.lock.waiterQueue = u :: rest →
      ∃ next, state.exec t (.perform .unlock) = some next ∧
        next.lock.waiterQueue = rest ∧ next.blockQueue u = none := by
  obtain ⟨encoded, served⟩ := served_of_attended reached
  refine ⟨?_, ?_, ?_, ?_, ?_⟩
  · intro t
    rw [← served.queued.blocked, List.mem_append]
  · intro waiting
    exact (served.coming waiting).imp_left fun taken =>
      not_forall.mp fun nobody => taken (encoded.free_iff.mpr nobody)
  · intro t operation outside
    obtain ⟨result, done⟩ := served.perform_returns t operation
    refine ⟨state.finish t operation result, ?_⟩
    dsimp only [State.exec]
    rw [if_pos outside, done, Option.map_some]
  · intro t killed inside running
    dsimp only [State.exec]
    rw [if_pos running]
    split
    · next outside => exact absurd outside inside
    · exact ⟨_, rfl⟩
    · next saved depth place =>
        obtain ⟨result, done⟩ := served.resumeWait_returns encoded place killed
        rw [done]
        exact ⟨_, rfl⟩
  · intro t u rest outside last first
    obtain ⟨result, done, waiters, runs⟩ := served.unlock_wakes encoded last first
    refine ⟨state.finish t .unlock result, ?_, waiters, runs⟩
    change (if state.place t = .outside then _ else _) = _
    rw [if_pos outside]
    exact congrArg (Option.map _) done

def contendedMonitor : State :=
  State.enter (State.enter ⟨⟨0, [], []⟩, fun _ => .outside, fun _ => none, fun _ => 0⟩ 1) 2

theorem waiters_are_woken_contended :
    ∃ next, contendedMonitor.exec 1 (.perform .unlock) = some next ∧
      next.lock.waiterQueue = [] ∧ next.blockQueue 2 = none := by
  have started : Reachable Initial AttendedStep
      ⟨⟨0, [], []⟩, fun _ => .outside, fun _ => none, fun _ => 0⟩ :=
    .start ⟨rfl, fun _ => ⟨rfl, rfl, rfl⟩⟩
  have taken := started.tail ⟨1, .lock, rfl, by decide, by simp, trivial⟩
  have reached : Reachable Initial AttendedStep contendedMonitor :=
    taken.tail ⟨2, .lock, rfl, by decide, by simp, trivial⟩
  exact (waiters_are_woken contendedMonitor reached).2.2.2.2 1 2 []
    (by decide) (by decide) (by decide)

example : (contendedMonitor.resume 2).exec 1 (.perform .unlock) = none := rfl

end LaTTe.Threads.Monitor
