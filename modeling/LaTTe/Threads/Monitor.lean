import LaTTe.Data.Transition
import LaTTe.Threads.Locks

namespace LaTTe.Threads.Monitor

open LaTTe.Data
open LaTTe.Sparc (Word)
open LaTTe.Threads.Locks (ownerIdMask semaphoreMask)

/-! The monitor of an object: its `lock_info`, its two queues and the threads that use it.  A
thread runs until it is suspended; `currentThreadID` is an argument of the operations. -/

abbrev ThreadId := BitVec 16

def hasWaitersMask : Word := 0x10000

/-- `*(unsigned short*) &lock_info`. -/
def upper (info : Word) : BitVec 16 := info.extractLsb' 16 16

/-- `*((unsigned short*) &lock_info + 1)`. -/
def lower (info : Word) : BitVec 16 := info.extractLsb' 0 16

def setUpper (info : Word) (value : BitVec 16) : Word := value ++ lower info

def setLower (info : Word) (value : BitVec 16) : Word := upper info ++ value

inductive Exception where
  | illegalMonitorState
  | threadDeath
  deriving DecidableEq, Repr

/-- `lock_info` and the queues of the `jLock`. -/
structure Lock where
  lockInfo : Word
  waiterQueue : List ThreadId
  condVarQueue : List ThreadId
  deriving DecidableEq

inductive Result where
  | returned (lock : Lock) (resumed : Option ThreadId)
  | onWaiterQueue (lock : Lock)
  | onCondVarQueue (lock : Lock) (resumed : Option ThreadId) (saved : Word)
  | threw (exception : Exception) (lock : Lock)
  deriving DecidableEq

namespace Lock

/-- `obj->lock_info |= HAS_WAITERS_MASK`. -/
def setHasWaiters (lock : Lock) : Lock :=
  { lock with lockInfo := lock.lockInfo ||| hasWaitersMask }

/-- `semaphore++`. -/
def raise (lock : Lock) : Lock :=
  { lock with lockInfo := setUpper lock.lockInfo (upper lock.lockInfo + 2) }

def waitInQueue (lock : Lock) (current : ThreadId) : Lock :=
  { lock.setHasWaiters with waiterQueue := current :: lock.waiterQueue }

/-- `_lockMutex`, up to where the thread is suspended.  It starts again from there. -/
def lockMutex (lock : Lock) (current : ThreadId) : Result :=
  if lock.lockInfo &&& semaphoreMask = 0 then
    .returned { lock with lockInfo := setLower lock.lockInfo current }.raise none
  else if lock.lockInfo &&& ownerIdMask = current.setWidth 32 then
    .returned lock.raise none
  else
    .onWaiterQueue (lock.waitInQueue current)

/-- `wakeup_waiter`.  It is not defined without a waiter. -/
def wakeupWaiter (lock : Lock) : Option Result :=
  match lock.waiterQueue with
  | [] => none
  | thread :: rest =>
      some (.returned { lock with
        waiterQueue := rest
        lockInfo := if rest = [] then 0 else lock.lockInfo } (some thread))

def unlockMutex (lock : Lock) : Option Result :=
  if 2 ≤ upper lock.lockInfo then
    let released : Lock :=
      { lock with lockInfo := setUpper lock.lockInfo (upper lock.lockInfo - 2) }
    if released.lockInfo >>> 16 ≠ 1 then
      some (.returned released none)
    else
      released.wakeupWaiter
  else
    some (.threw .illegalMonitorState lock)

/-- `_waitCond`, up to where the thread is suspended.  An assertion that fails returns
nothing. -/
def waitCond (lock : Lock) (current : ThreadId) : Option Result :=
  if lock.lockInfo &&& ownerIdMask ≠ current.setWidth 32 then
    some (.threw .illegalMonitorState lock)
  else
    let saved := lock.lockInfo
    let lock := { lock with
      lockInfo := lock.lockInfo &&& ~~~(semaphoreMask ||| ownerIdMask)
      condVarQueue := current :: lock.condVarQueue }
    match lock.waiterQueue with
    | [] => some (.onCondVarQueue lock none saved)
    | thread :: rest =>
        if lock.lockInfo &&& hasWaitersMask ≠ 0 then
          some (.onCondVarQueue { lock with
            waiterQueue := rest
            lockInfo := if rest = [] then 0 else 0x00010000 } (some thread) saved)
        else
          none

/-- `_waitCond` from where the thread has been suspended. -/
def resumeWait (lock : Lock) (current : ThreadId) (saved : Word) (killed : Bool) :
    Option Result :=
  if lock.lockInfo &&& semaphoreMask ≠ 0 then
    some (.onWaiterQueue (lock.waitInQueue current))
  else
    let lock := { lock with lockInfo := saved }
    if killed then
      some (.threw .threadDeath lock)
    else if lock.waiterQueue ≠ [] then
      if lock.lockInfo &&& semaphoreMask ≠ 0 then
        some (.returned lock.setHasWaiters none)
      else
        none
    else
      some (.returned { lock with lockInfo := lock.lockInfo &&& ~~~hasWaitersMask } none)

def signalCond (lock : Lock) (current : ThreadId) : Result :=
  if lock.lockInfo &&& ownerIdMask ≠ current.setWidth 32 then
    .threw .illegalMonitorState lock
  else
    match lock.condVarQueue with
    | [] => .returned lock none
    | thread :: rest =>
        .returned { lock.setHasWaiters with
          condVarQueue := rest
          waiterQueue := thread :: lock.waiterQueue } none

def broadcastCond (lock : Lock) (current : ThreadId) : Result :=
  if lock.lockInfo &&& ownerIdMask ≠ current.setWidth 32 then
    .threw .illegalMonitorState lock
  else
    match lock.condVarQueue with
    | [] => .returned lock none
    | waiting =>
        .returned { lock.setHasWaiters with
          condVarQueue := []
          waiterQueue := waiting ++ lock.waiterQueue } none

end Lock

inductive Operation where
  | unlock | wait | signal | broadcast
  deriving DecidableEq, Repr

def Lock.perform (lock : Lock) (current : ThreadId) : Operation → Option Result
  | .unlock => lock.unlockMutex
  | .wait => lock.waitCond current
  | .signal => some (lock.signalCond current)
  | .broadcast => some (lock.broadcastCond current)

def Lock.Rejects (lock : Lock) (current : ThreadId) : Prop :=
  ∀ operation, lock.perform current operation = some (.threw .illegalMonitorState lock)

/-- The number of times the lock has been taken, as `lock_info` has it. -/
def count (info : Word) : Nat := info.toNat / 2 ^ 17

section

variable (info : Word) (value : BitVec 16)

theorem toNat_upper : (upper info).toNat = info.toNat / 2 ^ 16 := by
  have := info.isLt
  rw [upper, BitVec.extractLsb'_toNat, Nat.shiftRight_eq_div_pow]
  omega

theorem toNat_lower : (lower info).toNat = info.toNat % 2 ^ 16 := by
  rw [lower, BitVec.extractLsb'_toNat, Nat.shiftRight_zero]

theorem toNat_setUpper :
    (setUpper info value).toNat = value.toNat * 2 ^ 16 + info.toNat % 2 ^ 16 := by
  have low := (lower info).isLt
  rw [setUpper, BitVec.toNat_append, ← Nat.shiftLeft_add_eq_or_of_lt low, Nat.shiftLeft_eq,
    toNat_lower]

theorem toNat_setLower :
    (setLower info value).toNat = info.toNat / 2 ^ 16 * 2 ^ 16 + value.toNat := by
  rw [setLower, BitVec.toNat_append, ← Nat.shiftLeft_add_eq_or_of_lt value.isLt,
    Nat.shiftLeft_eq, toNat_upper]

theorem free_iff : info &&& semaphoreMask = 0 ↔ count info = 0 := by
  have mask : semaphoreMask = BitVec.allOnes 32 <<< 17 := by decide
  have zero : (0 : Word).toNat = 0 := rfl
  have := info.isLt
  rw [mask, ← BitVec.shiftLeft_ushiftRight, ← BitVec.toNat_inj, BitVec.toNat_shiftLeft,
    BitVec.toNat_ushiftRight, Nat.shiftRight_eq_div_pow, Nat.shiftLeft_eq, count]
  omega

theorem owner_iff : info &&& ownerIdMask = value.setWidth 32 ↔ lower info = value := by
  have mask : ownerIdMask.toNat = 2 ^ 16 - 1 := by decide
  have small := value.isLt
  rw [← BitVec.toNat_inj, ← BitVec.toNat_inj, BitVec.toNat_and, mask,
    Nat.and_two_pow_sub_one_eq_mod, BitVec.toNat_setWidth, toNat_lower]
  omega

theorem taken_iff : 2 ≤ upper info ↔ count info ≠ 0 := by
  have two : (2 : BitVec 16).toNat = 2 := rfl
  rw [BitVec.le_def, toNat_upper, two, count]
  omega

end

theorem Lock.rejects_iff (lock : Lock) (current : ThreadId) :
    lock.Rejects current ↔ count lock.lockInfo = 0 ∧ lower lock.lockInfo ≠ current := by
  constructor
  · intro rejects
    constructor
    · by_contra taken
      have unlock := rejects .unlock
      simp only [perform, unlockMutex, (taken_iff _).mpr taken, if_true] at unlock
      split at unlock
      · cases unlock
      · unfold wakeupWaiter at unlock
        split at unlock <;> cases unlock
    · intro owner
      have signal := rejects .signal
      simp only [perform, signalCond, (owner_iff _ _).mpr owner, ne_eq, not_true_eq_false,
        if_false] at signal
      split at signal <;> cases signal
  · rintro ⟨free, other⟩ operation
    have foreign : lock.lockInfo &&& ownerIdMask ≠ current.setWidth 32 :=
      fun same => other ((owner_iff _ _).mp same)
    cases operation with
    | unlock => exact if_neg fun taken => (taken_iff _).mp taken free
    | wait => exact if_pos foreign
    | signal => exact congrArg some (if_pos foreign)
    | broadcast => exact congrArg some (if_pos foreign)

/-! Threads that use the monitor. -/

inductive Queue where
  | waiter
  | condVar
  deriving DecidableEq, Repr

/-- Where a thread is: outside of the operations, in `_lockMutex`, or in `_waitCond` with the
word and the number of acquisitions that it is going to restore. -/
inductive Place where
  | outside
  | entering
  | waiting (saved : Word) (depth : Nat)
  deriving DecidableEq

/-- `blockQueue` is the queue that a suspended thread has been put on, and `held` tells how
often a thread has taken the monitor without giving it back. -/
structure State where
  lock : Lock
  place : ThreadId → Place
  blockQueue : ThreadId → Option Queue
  held : ThreadId → Nat

namespace State

/-- `iresumeThread`: the thread is taken off the queue that it was put on. -/
def resume (state : State) (t : ThreadId) : State :=
  match state.blockQueue t with
  | none => state
  | some queue =>
      { state with
        lock := match queue with
          | .waiter => { state.lock with waiterQueue := state.lock.waiterQueue.erase t }
          | .condVar => { state.lock with condVarQueue := state.lock.condVarQueue.erase t }
        blockQueue := Function.update state.blockQueue t none }

def resumeOption (state : State) : Option ThreadId → State
  | none => state
  | some t => state.resume t

/-- A round of `_lockMutex`. -/
def enter (state : State) (t : ThreadId) : State :=
  match state.lock.lockMutex t with
  | .returned lock _ =>
      { state with
        lock := lock
        place := Function.update state.place t .outside
        held := Function.update state.held t (state.held t + 1) }
  | .onWaiterQueue lock =>
      { state with
        lock := lock
        place := Function.update state.place t .entering
        blockQueue := Function.update state.blockQueue t (some .waiter) }
  | _ => state

def finish (state : State) (t : ThreadId) (operation : Operation) : Result → State
  | .returned lock resumed =>
      { state with
        lock := lock
        held := if operation = Operation.unlock then Function.update state.held t (state.held t - 1)
          else state.held }.resumeOption resumed
  | .onCondVarQueue lock resumed saved =>
      { state with
        lock := lock
        place := Function.update state.place t (.waiting saved (state.held t))
        blockQueue := Function.update state.blockQueue t (some .condVar)
        held := Function.update state.held t 0 }.resumeOption resumed
  | .onWaiterQueue lock => { state with lock := lock }
  | .threw _ lock => { state with lock := lock }

/-- What the second part of `_waitCond` has done. -/
def finishWait (state : State) (t : ThreadId) (depth : Nat) : Result → State
  | .onWaiterQueue lock =>
      { state with
        lock := lock
        blockQueue := Function.update state.blockQueue t (some .waiter) }
  | .returned lock _ | .threw _ lock | .onCondVarQueue lock _ _ =>
      { state with
        lock := lock
        place := Function.update state.place t .outside
        held := Function.update state.held t depth }

end State

inductive Action where
  | lock
  | perform (operation : Operation)
  | goOn (killed : Bool)
  | wake
  deriving DecidableEq, Repr

def State.exec (state : State) (t : ThreadId) : Action → Option State
  | .lock => if state.place t = .outside then some (state.enter t) else none
  | .perform operation =>
      if state.place t = .outside then
        (state.lock.perform t operation).map (state.finish t operation)
      else
        none
  | .goOn killed =>
      if state.blockQueue t = none then
        match state.place t with
        | .outside => none
        | .entering => some (state.enter t)
        | .waiting saved depth =>
            (state.lock.resumeWait t saved killed).map (state.finishWait t depth)
      else
        none
  | .wake => some (state.resume t)

def Initial (state : State) : Prop :=
  state.lock = ⟨0, [], []⟩ ∧ ∀ t, state.place t = .outside ∧ state.blockQueue t = none ∧
    state.held t = 0

def Step (state next : State) : Prop :=
  ∃ t action, state.exec t action = some next

def State.Outsider (state : State) (t : ThreadId) : Prop :=
  state.place t = .outside ∧ state.held t = 0

/-- A thread that does not hold the monitor uses it only where that is rejected, and no thread
takes it so often that the count does not fit. -/
def CarefulStep (state next : State) : Prop :=
  ∃ t action, state.exec t action = some next ∧
    count state.lock.lockInfo + 1 < 2 ^ 15 ∧
    ((∃ operation, action = .perform operation) → state.held t = 0 →
      count state.lock.lockInfo = 0 ∧ lower state.lock.lockInfo ≠ t)

structure Encoded (state : State) : Prop where
  held : ∀ t, state.held t =
    if lower state.lock.lockInfo = t then count state.lock.lockInfo else 0
  waiting : ∀ t saved depth, state.place t = .waiting saved depth →
    lower saved = t ∧ count saved = depth

section

variable (info : Word) (value : BitVec 16)

theorem lower_or : lower (info ||| hasWaitersMask) = lower info := by
  rw [lower, BitVec.extractLsb'_or]
  exact BitVec.or_zero

theorem lower_and : lower (info &&& ~~~hasWaitersMask) = lower info := by
  rw [lower, BitVec.extractLsb'_and]
  exact BitVec.and_allOnes

theorem count_eq : count info = (info.extractLsb' 17 15).toNat := by
  have := info.isLt
  rw [BitVec.extractLsb'_toNat, Nat.shiftRight_eq_div_pow, count]
  omega

theorem count_or : count (info ||| hasWaitersMask) = count info := by
  rw [count_eq, count_eq, BitVec.extractLsb'_or]
  exact congrArg BitVec.toNat BitVec.or_zero

theorem count_and : count (info &&& ~~~hasWaitersMask) = count info := by
  rw [count_eq, count_eq, BitVec.extractLsb'_and]
  exact congrArg BitVec.toNat BitVec.and_allOnes

theorem count_cleared : count (info &&& ~~~(semaphoreMask ||| ownerIdMask)) = 0 := by
  rw [count_eq, BitVec.extractLsb'_and]
  exact congrArg BitVec.toNat (BitVec.and_zero (x := info.extractLsb' 17 15))

theorem lower_setUpper : lower (setUpper info value) = lower info := by
  apply BitVec.eq_of_toNat_eq
  rw [toNat_lower, toNat_lower, toNat_setUpper]
  omega

theorem lower_setLower : lower (setLower info value) = value := by
  have := value.isLt
  apply BitVec.eq_of_toNat_eq
  rw [toNat_lower, toNat_setLower]
  omega

theorem count_setLower : count (setLower info value) = count info := by
  have := value.isLt
  rw [count, count, toNat_setLower]
  omega

theorem count_raise (fits : count info + 1 < 2 ^ 15) :
    count (setUpper info (upper info + 2)) = count info + 1 := by
  have two : (2 : BitVec 16).toNat = 2 := rfl
  unfold count at *
  rw [toNat_setUpper, BitVec.toNat_add, toNat_upper, two]
  omega

theorem count_lower (taken : count info ≠ 0) :
    count (setUpper info (upper info - 2)) = count info - 1 := by
  have two : (2 : BitVec 16).toNat = 2 := rfl
  have := info.isLt
  unfold count at *
  rw [toNat_setUpper, BitVec.toNat_sub, toNat_upper, two]
  omega

end

namespace State

variable (state : State) (t : ThreadId)

theorem resume_info : (state.resume t).lock.lockInfo = state.lock.lockInfo := by
  unfold resume
  split
  · rfl
  · split <;> rfl

theorem resume_held : (state.resume t).held = state.held := by
  unfold resume
  split <;> rfl

theorem resume_place : (state.resume t).place = state.place := by
  unfold resume
  split <;> rfl

end State

namespace Encoded

variable {state next : State} {t : ThreadId} {lock : Lock}

theorem resume (encoded : Encoded state) (t : ThreadId) : Encoded (state.resume t) := by
  constructor
  · intro u
    rw [state.resume_info, state.resume_held]
    exact encoded.held u
  · intro u saved depth place
    rw [state.resume_place] at place
    exact encoded.waiting u saved depth place

theorem resumeOption (encoded : Encoded state) (resumed : Option ThreadId) :
    Encoded (state.resumeOption resumed) := by
  cases resumed with
  | none => exact encoded
  | some t => exact encoded.resume t

theorem sameWord (encoded : Encoded state) (held : next.held = state.held)
    (owner : lower next.lock.lockInfo = lower state.lock.lockInfo)
    (depth : count next.lock.lockInfo = count state.lock.lockInfo)
    (places : ∀ u saved depth, next.place u = .waiting saved depth →
      state.place u = .waiting saved depth) : Encoded next := by
  constructor
  · intro u
    rw [held, owner, depth]
    exact encoded.held u
  · exact fun u saved depth place => encoded.waiting u saved depth (places u saved depth place)

theorem held_eq_zero (encoded : Encoded state) (free : count state.lock.lockInfo = 0)
    (t : ThreadId) : state.held t = 0 := by
  rw [encoded.held t, free, ite_self]

theorem owner_eq (encoded : Encoded state) (holds : state.held t ≠ 0) :
    lower state.lock.lockInfo = t ∧ count state.lock.lockInfo = state.held t := by
  have held := encoded.held t
  split at held
  · next owner => exact ⟨owner, held.symm⟩
  · exact absurd held holds

theorem free_iff (encoded : Encoded state) :
    count state.lock.lockInfo = 0 ↔ ∀ t, state.held t = 0 := by
  constructor
  · exact encoded.held_eq_zero
  · intro nobody
    have held := encoded.held (lower state.lock.lockInfo)
    rw [if_pos rfl, nobody] at held
    exact held.symm

theorem of_update {depth : Nat}
    (held : next.held = Function.update state.held t depth)
    (others : ∀ u, u ≠ t → state.held u = 0)
    (word : lower next.lock.lockInfo = t ∧ count next.lock.lockInfo = depth ∨
      depth = 0 ∧ count next.lock.lockInfo = 0)
    (places : ∀ u saved depth, next.place u = .waiting saved depth →
      lower saved = u ∧ count saved = depth) : Encoded next := by
  refine ⟨fun u => ?_, places⟩
  rw [held]
  rcases eq_or_ne u t with rfl | other
  · rw [Function.update_self]
    rcases word with ⟨owner, same⟩ | ⟨zero, free⟩
    · rw [if_pos owner, same]
    · rw [zero, free, ite_self]
  · rw [Function.update_of_ne other, others u other]
    rcases word with ⟨owner, _⟩ | ⟨_, free⟩
    · rw [if_neg (by rw [owner]; exact other.symm)]
    · rw [free, ite_self]

theorem waiting_of_update {place : ThreadId → Place} {new : Place}
    (notWaiting : ∀ saved depth, new ≠ .waiting saved depth) {u : ThreadId} {saved : Word}
    {depth : Nat} (waits : Function.update place t new u = .waiting saved depth) :
    place u = .waiting saved depth := by
  rcases eq_or_ne u t with rfl | other
  · rw [Function.update_self] at waits
    exact absurd waits (notWaiting saved depth)
  · rwa [Function.update_of_ne other] at waits

section

variable (encoded : Encoded state)

include encoded

theorem waiting_update {saved : Word} {depth : Nat}
    (owner : lower saved = t) (same : count saved = depth) {u : ThreadId} {word : Word}
    {n : Nat} (waits : Function.update state.place t (.waiting saved depth) u =
      .waiting word n) : lower word = u ∧ count word = n := by
  rcases eq_or_ne u t with rfl | other
  · rw [Function.update_self] at waits
    cases waits
    exact ⟨owner, same⟩
  · rw [Function.update_of_ne other] at waits
    exact encoded.waiting u word n waits

theorem enter (fits : count state.lock.lockInfo + 1 < 2 ^ 15)
    (t : ThreadId) : Encoded (state.enter t) := by
  unfold State.enter Lock.lockMutex
  by_cases free : state.lock.lockInfo &&& semaphoreMask = 0
  · rw [if_pos free]
    have none := encoded.held_eq_zero ((Monitor.free_iff _).mp free)
    refine of_update rfl (fun u _ => none u) (.inl ⟨?_, ?_⟩) fun u saved depth waits =>
      encoded.waiting u saved depth (waiting_of_update (by simp) waits)
    · dsimp only [Lock.raise]
      rw [lower_setUpper, lower_setLower]
    · dsimp only [Lock.raise]
      rw [count_raise _ (by rwa [count_setLower]), count_setLower, (Monitor.free_iff _).mp free,
        none]
  · rw [if_neg free]
    by_cases owner : state.lock.lockInfo &&& ownerIdMask = t.setWidth 32
    · rw [if_pos owner]
      have mine := (owner_iff _ _).mp owner
      refine of_update rfl (fun u other => ?_) (.inl ⟨?_, ?_⟩) fun u saved depth waits =>
        encoded.waiting u saved depth (waiting_of_update (by simp) waits)
      · rw [encoded.held u, if_neg (by rw [mine]; exact other.symm)]
      · dsimp only [Lock.raise]
        rw [lower_setUpper, mine]
      · dsimp only [Lock.raise]
        rw [count_raise _ fits, encoded.held t, if_pos mine]
    · rw [if_neg owner]
      exact encoded.sameWord rfl (lower_or _) (count_or _) fun u saved depth waits =>
        waiting_of_update (by simp) waits

/-- The holder gives the monitor back once. -/
theorem unlock (holds : state.held t ≠ 0) {result : Result}
    (done : state.lock.unlockMutex = some result) :
    Encoded (state.finish t .unlock result) := by
  obtain ⟨owner, depth⟩ := encoded.owner_eq holds
  have taken : count state.lock.lockInfo ≠ 0 := by rwa [depth]
  have others : ∀ u, u ≠ t → state.held u = 0 := by
    intro u other
    rw [encoded.held u, if_neg (by rw [owner]; exact other.symm)]
  have lowered := count_lower _ taken
  unfold Lock.unlockMutex at done
  rw [if_pos ((taken_iff _).mpr taken)] at done
  dsimp only at done
  split at done
  · obtain rfl := Option.some.inj done
    refine of_update rfl others (.inl ⟨?_, ?_⟩) encoded.waiting
    · exact (lower_setUpper _ _).trans owner
    · rw [← depth]
      exact lowered
  · next waiters =>
      unfold Lock.wakeupWaiter at done
      split at done
      · cases done
      · next thread rest queue =>
          obtain rfl := Option.some.inj done
          refine resumeOption ?_ (some thread)
          refine of_update rfl others ?_ encoded.waiting
          dsimp only
          split
          · -- the last waiter leaves a word without an owner
            have one : (1 : Word).toNat = 1 := rfl
            have upperHalf := congrArg BitVec.toNat (not_not.mp waiters)
            rw [BitVec.toNat_ushiftRight, Nat.shiftRight_eq_div_pow, one] at upperHalf
            refine .inr ⟨?_, rfl⟩
            rw [← depth, ← lowered, count]
            omega
          · refine .inl ⟨(lower_setUpper _ _).trans owner, ?_⟩
            rw [← depth]
            exact lowered

theorem wait (holds : state.held t ≠ 0) {result : Result}
    (done : state.lock.waitCond t = some result) : Encoded (state.finish t .wait result) := by
  obtain ⟨owner, depth⟩ := encoded.owner_eq holds
  have others : ∀ u, u ≠ t → state.held u = 0 := by
    intro u other
    rw [encoded.held u, if_neg (by rw [owner]; exact other.symm)]
  have places : ∀ u saved n, Function.update state.place t
      (.waiting state.lock.lockInfo (state.held t)) u = .waiting saved n →
      lower saved = u ∧ count saved = n :=
    fun u saved n waits => encoded.waiting_update owner depth waits
  unfold Lock.waitCond at done
  rw [if_neg (not_not.mpr ((owner_iff _ _).mpr owner))] at done
  dsimp only at done
  split at done
  · obtain rfl := Option.some.inj done
    exact of_update rfl others (.inr ⟨rfl, count_cleared _⟩) places
  · next thread rest queue =>
      split at done
      · obtain rfl := Option.some.inj done
        refine resumeOption ?_ (some thread)
        refine of_update rfl others (.inr ⟨rfl, ?_⟩) places
        dsimp only
        split <;> rfl
      · cases done

theorem signal (t : ThreadId) :
    Encoded (state.finish t .signal (state.lock.signalCond t)) := by
  unfold Lock.signalCond
  split
  · exact encoded.sameWord rfl rfl rfl fun _ _ _ waits => waits
  · split
    · exact encoded.sameWord rfl rfl rfl fun _ _ _ waits => waits
    · exact encoded.sameWord rfl (lower_or _) (count_or _) fun _ _ _ waits => waits

theorem broadcast (t : ThreadId) :
    Encoded (state.finish t .broadcast (state.lock.broadcastCond t)) := by
  unfold Lock.broadcastCond
  split
  · exact encoded.sameWord rfl rfl rfl fun _ _ _ waits => waits
  · split
    · exact encoded.sameWord rfl rfl rfl fun _ _ _ waits => waits
    · exact encoded.sameWord rfl (lower_or _) (count_or _) fun _ _ _ waits => waits

theorem resumeWait {saved : Word} {depth : Nat}
    (place : state.place t = .waiting saved depth) {killed : Bool} {result : Result}
    (done : state.lock.resumeWait t saved killed = some result) :
    Encoded (state.finishWait t depth result) := by
  obtain ⟨owner, same⟩ := encoded.waiting t saved depth place
  unfold Lock.resumeWait at done
  by_cases free : state.lock.lockInfo &&& semaphoreMask = 0
  · have nobody := encoded.held_eq_zero ((Monitor.free_iff _).mp free)
    have restored : ∀ lock : Lock, lower lock.lockInfo = t → count lock.lockInfo = depth →
        Encoded { state with
          lock := lock
          place := Function.update state.place t .outside
          held := Function.update state.held t depth } :=
      fun lock mine deep => of_update rfl (fun u _ => nobody u) (.inl ⟨mine, deep⟩)
        fun u saved n waits => encoded.waiting u saved n (waiting_of_update (by simp) waits)
    rw [if_neg (not_not.mpr free)] at done
    dsimp only at done
    split at done
    · obtain rfl := Option.some.inj done
      exact restored _ owner same
    · split at done
      · split at done
        · obtain rfl := Option.some.inj done
          exact restored _ ((lower_or _).trans owner) ((count_or _).trans same)
        · cases done
      · obtain rfl := Option.some.inj done
        exact restored _ ((lower_and _).trans owner) ((count_and _).trans same)
  · rw [if_pos free] at done
    obtain rfl := Option.some.inj done
    exact encoded.sameWord rfl (lower_or _) (count_or _) fun _ _ _ waits => waits

theorem reject {operation : Operation} (rejects : state.lock.Rejects t) {result : Result}
    (done : state.lock.perform t operation = some result) :
    Encoded (state.finish t operation result) := by
  obtain rfl := Option.some.inj ((rejects operation).symm.trans done)
  exact encoded.sameWord rfl rfl rfl fun _ _ _ waits => waits

theorem perform {operation : Operation} (holds : state.held t ≠ 0)
    {result : Result} (done : state.lock.perform t operation = some result) :
    Encoded (state.finish t operation result) := by
  cases operation with
  | unlock => exact encoded.unlock holds done
  | wait => exact encoded.wait holds done
  | signal =>
      obtain rfl := Option.some.inj done
      exact encoded.signal t
  | broadcast =>
      obtain rfl := Option.some.inj done
      exact encoded.broadcast t

theorem step (taken : CarefulStep state next) : Encoded next := by
  obtain ⟨t, action, run, fits, careful⟩ := taken
  cases action with
  | lock =>
      dsimp only [State.exec] at run
      split at run
      · obtain rfl := Option.some.inj run
        exact encoded.enter fits t
      · cases run
  | perform operation =>
      dsimp only [State.exec] at run
      split at run
      · obtain ⟨result, done, rfl⟩ := Option.map_eq_some_iff.mp run
        rcases Nat.eq_zero_or_pos (state.held t) with none | holds
        · exact encoded.reject ((Lock.rejects_iff _ _).mpr (careful ⟨operation, rfl⟩ none)) done
        · exact encoded.perform holds.ne' done
      · cases run
  | goOn killed =>
      dsimp only [State.exec] at run
      split at run
      · split at run
        · cases run
        · obtain rfl := Option.some.inj run
          exact encoded.enter fits t
        · next saved depth place =>
            obtain ⟨result, done, rfl⟩ := Option.map_eq_some_iff.mp run
            exact encoded.resumeWait place done
      · cases run
  | wake =>
      obtain rfl := Option.some.inj run
      exact encoded.resume t

end

end Encoded

theorem encoded_of_initial {state : State} (initial : Initial state) : Encoded state := by
  obtain ⟨lock, threads⟩ := initial
  constructor
  · intro t
    rw [(threads t).2.2, lock]
    exact (ite_self 0).symm
  · intro t saved depth place
    rw [(threads t).1] at place
    cases place

theorem encoded_of_careful {state : State} (reached : Reachable Initial CarefulStep state) :
    Encoded state :=
  reached.invariant Encoded (fun _ => encoded_of_initial) fun _ _ encoded taken =>
    encoded.step taken

/-- In every reachable state the operations reject a thread that does not hold the monitor
exactly if the lock is free and its word names another thread.  If they have always been used
so, then the lock is free exactly while nobody holds the monitor. -/
theorem illegal_use_rejected_iff (state : State) (t : ThreadId) :
    (Reachable Initial Step state → state.Outsider t →
      (state.lock.Rejects t ↔
        count state.lock.lockInfo = 0 ∧ lower state.lock.lockInfo ≠ t)) ∧
    (Reachable Initial CarefulStep state → state.Outsider t →
      (state.lock.Rejects t ↔
        (∀ u, state.held u = 0) ∧ lower state.lock.lockInfo ≠ t)) := by
  constructor
  · exact fun _ _ => state.lock.rejects_iff t
  · intro reached _
    rw [Lock.rejects_iff, (encoded_of_careful reached).free_iff]

private def unlocked : State where
  lock := ⟨0, [], []⟩
  place := fun _ => .outside
  blockQueue := fun _ => none
  held := fun _ => 0

/-- A thread has taken the monitor and released it, and its id is left in the word. -/
theorem illegal_use_rejected_iff_released : ∃ state, Reachable Initial CarefulStep state ∧
    state.lock.lockInfo = 0x00000001#32 ∧ state.lock.Rejects 2 ∧ ¬ state.lock.Rejects 1 := by
  have runs : ((unlocked.exec 1 .lock).bind fun state => state.exec 1 (.perform .unlock)).map
      (fun state => (state.lock.lockInfo, state.place 1, state.held 1, state.place 2,
        state.held 2)) = some (0x00000001#32, .outside, 0, .outside, 0) := by
    decide
  obtain ⟨state, run, facts⟩ := Option.map_eq_some_iff.mp runs
  obtain ⟨taken, locked, released⟩ := Option.bind_eq_some_iff.mp run
  simp only [Prod.mk.injEq] at facts
  obtain ⟨word, outside, free, outside', free'⟩ := facts
  obtain rfl : unlocked.enter 1 = taken := Option.some.inj locked
  have initial : Reachable Initial CarefulStep unlocked :=
    .start ⟨rfl, fun _ => ⟨rfl, rfl, rfl⟩⟩
  have reached := (initial.tail ⟨1, .lock, locked, by decide, by simp⟩).tail
    ⟨1, .perform .unlock, released, by decide, fun _ held => absurd held (by decide)⟩
  have any : Reachable Initial Step state :=
    reached.weaken fun _ _ ⟨t, action, run, _⟩ => ⟨t, action, run⟩
  refine ⟨state, reached, word, ?_, ?_⟩
  · refine ((illegal_use_rejected_iff state 2).1 any ⟨outside', free'⟩).mpr ?_
    rw [word]
    decide
  · rw [(illegal_use_rejected_iff state 1).2 reached ⟨outside, free⟩, word]
    exact fun rejected => rejected.2 (by decide)

/-- The first thread has taken the monitor, and the second one may unlock it. -/
theorem other_thread_unlocks :
    ¬ ∀ state, Reachable Initial Step state → ∀ t, state.Outsider t → state.lock.Rejects t := by
  intro claim
  have initial : Initial unlocked := ⟨rfl, fun _ => ⟨rfl, rfl, rfl⟩⟩
  have taken : Step unlocked (unlocked.enter 1) := ⟨1, .lock, rfl⟩
  have outsider : (unlocked.enter 1).Outsider 2 := by
    constructor <;> decide
  have rejects := claim _ ((Reachable.start initial).tail taken) 2 outsider
  exact absurd ((Lock.rejects_iff _ _).mp rejects).1 (by decide)

end LaTTe.Threads.Monitor
