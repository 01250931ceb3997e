import LaTTe.Threads.Monitor

namespace LaTTe.Threads.Monitor

open LaTTe.Data
open LaTTe.Sparc (Word)
open LaTTe.Threads.Locks (ownerIdMask semaphoreMask)

/-! A thread that waits can be preempted in `_waitCond` while interrupts are not disabled: the
handler of the timer signal may switch to another thread that has slept long enough. -/

namespace Lock

def clear (lock : Lock) : Lock :=
  { lock with lockInfo := lock.lockInfo &&& ~~~(semaphoreMask ||| ownerIdMask) }

def enqueue (lock : Lock) (current : ThreadId) (saved : Word) : Option Result :=
  let lock := { lock with condVarQueue := current :: lock.condVarQueue }
  match lock.waiterQueue with
  | [] => some (.onCondVarQueue lock none saved)
  | thread :: rest =>
      if lock.lockInfo &&& hasWaitersMask ≠ 0 then
        some (.onCondVarQueue { lock with
          waiterQueue := rest
          lockInfo := if rest = [] then 0 else 0x00010000 } (some thread) saved)
      else
        none

def restore (lock : Lock) (saved : Word) (killed : Bool) : Option Result :=
  let lock := { lock with lockInfo := saved }
  if killed then
    some (.threw .threadDeath lock)
  else if lock.waiterQueue ≠ [] then
    if lock.lockInfo &&& semaphoreMask ≠ 0 then
      some (.returned lock.setHasWaiters none)
    else
      none
  else
    some (.returned { lock with lockInfo := lock.lockInfo &&& ~~~hasWaitersMask } none)

theorem waitCond_eq {lock : Lock} {current : ThreadId}
    (owner : lock.lockInfo &&& ownerIdMask = current.setWidth 32) :
    lock.waitCond current = lock.clear.enqueue current lock.lockInfo := by
  rw [waitCond, if_neg (not_not.mpr owner)]
  rfl

theorem resumeWait_eq {lock : Lock} (free : lock.lockInfo &&& semaphoreMask = 0)
    (current : ThreadId) (saved : Word) (killed : Bool) :
    lock.resumeWait current saved killed = lock.restore saved killed := by
  rw [resumeWait, if_neg (not_not.mpr free)]
  rfl

theorem enqueue_free {lock : Lock} {current : ThreadId} {saved : Word} {result : Result}
    (free : count lock.lockInfo = 0) (done : lock.enqueue current saved = some result) :
    ∃ after resumed, result = .onCondVarQueue after resumed saved ∧
      count after.lockInfo = 0 := by
  unfold enqueue at done
  dsimp only at done
  split at done
  · obtain rfl := Option.some.inj done
    exact ⟨_, none, rfl, free⟩
  · next thread rest queue =>
      split at done
      · obtain rfl := Option.some.inj done
        refine ⟨_, some thread, rfl, ?_⟩
        dsimp only
        split <;> rfl
      · cases done

theorem restore_word {lock : Lock} {saved : Word} {killed : Bool} {result : Result}
    (done : lock.restore saved killed = some result) :
    ∃ after, (result = .returned after none ∨ result = .threw .threadDeath after) ∧
      lower after.lockInfo = lower saved ∧ count after.lockInfo = count saved := by
  unfold restore at done
  dsimp only at done
  split at done
  · obtain rfl := Option.some.inj done
    exact ⟨_, .inr rfl, rfl, rfl⟩
  · split at done
    · split at done
      · obtain rfl := Option.some.inj done
        exact ⟨_, .inl rfl, lower_or saved, count_or saved⟩
      · cases done
    · obtain rfl := Option.some.inj done
      exact ⟨_, .inl rfl, lower_and saved, count_and saved⟩

end Lock

inductive Pause where
  | clearing (saved : Word) (depth : Nat)
  | restoring (saved : Word) (depth : Nat)
  deriving DecidableEq

structure Interleaving where
  state : State
  paused : ThreadId → Option Pause

/-- An action of a thread as a whole, or a part of `_waitCond` with which the thread is
preempted or from which it goes on. -/
inductive Move where
  | whole (t : ThreadId) (action : Action)
  | clear (t : ThreadId)
  | enqueue (t : ThreadId)
  | leaveLoop (t : ThreadId)
  | restore (t : ThreadId) (killed : Bool)
  deriving DecidableEq, Repr

def State.finishEnqueue (state : State) (t : ThreadId) (depth : Nat) : Result → State
  | .onCondVarQueue lock resumed saved =>
      { state with
        lock := lock
        place := Function.update state.place t (.waiting saved depth)
        blockQueue := Function.update state.blockQueue t (some .condVar) }.resumeOption resumed
  | _ => state

namespace Interleaving

def exec (s : Interleaving) : Move → Option Interleaving
  | .whole t action =>
      if s.paused t = none then
        (s.state.exec t action).map fun state => { s with state := state }
      else
        none
  | .clear t =>
      if s.paused t = none ∧ s.state.place t = .outside ∧
          s.state.lock.lockInfo &&& ownerIdMask = t.setWidth 32 then
        some {
          state := { s.state with
            lock := s.state.lock.clear
            held := Function.update s.state.held t 0 }
          paused := Function.update s.paused t
            (some (.clearing s.state.lock.lockInfo (s.state.held t))) }
      else
        none
  | .enqueue t =>
      match s.paused t with
      | some (.clearing saved depth) =>
          (s.state.lock.enqueue t saved).map fun result => {
            state := s.state.finishEnqueue t depth result
            paused := Function.update s.paused t none }
      | _ => none
  | .leaveLoop t =>
      match s.state.place t with
      | .waiting saved depth =>
          if s.paused t = none ∧ s.state.blockQueue t = none ∧
              s.state.lock.lockInfo &&& semaphoreMask = 0 then
            some { s with
              paused := Function.update s.paused t (some (.restoring saved depth)) }
          else
            none
      | _ => none
  | .restore t killed =>
      match s.paused t with
      | some (.restoring saved depth) =>
          (s.state.lock.restore saved killed).map fun result => {
            state := s.state.finishWait t depth result
            paused := Function.update s.paused t none }
      | _ => none

def Initial (s : Interleaving) : Prop :=
  Monitor.Initial s.state ∧ ∀ t, s.paused t = none

def Step (s next : Interleaving) : Prop :=
  ∃ move, s.exec move = some next

/-- While a thread is preempted in `_waitCond` no other thread uses the monitor; the monitor is
used only where that is allowed and the count fits. -/
def Allowed (s : Interleaving) : Move → Prop
  | .whole t action =>
      (action = .wake ∨ ∀ u, s.paused u = none) ∧
        count s.state.lock.lockInfo + 1 < 2 ^ 15 ∧
        ((∃ operation, action = .perform operation) → s.state.held t = 0 →
          count s.state.lock.lockInfo = 0 ∧ lower s.state.lock.lockInfo ≠ t)
  | .clear t => (∀ u, s.paused u = none) ∧ s.state.held t ≠ 0
  | .leaveLoop _ => ∀ u, s.paused u = none
  | .enqueue t | .restore t _ => ∀ u, u ≠ t → s.paused u = none

def CarefulStep (s next : Interleaving) : Prop :=
  ∃ move, s.exec move = some next ∧ s.Allowed move

def GaveUp (s : Interleaving) (t : ThreadId) : Prop :=
  s.state.held t = 0 ∧ ∀ u, ∃ lock, s.state.lock.lockMutex u = .returned lock none

def Holds (s : Interleaving) (t : ThreadId) (depth : Nat) : Prop :=
  lower s.state.lock.lockInfo = t ∧ count s.state.lock.lockInfo = depth ∧
    s.state.held t = depth ∧ ∀ u, u ≠ t → s.state.held u = 0

def WaitRight (s : Interleaving) (next : Interleaving) : Move → Prop
  | .whole t (.perform .wait) => ∀ saved depth, next.state.place t = .waiting saved depth →
      depth = s.state.held t ∧ next.GaveUp t
  | .clear t => ∃ saved, next.paused t = some (.clearing saved (s.state.held t))
  | .enqueue t => ∀ saved depth, s.paused t = some (.clearing saved depth) →
      next.state.place t = .waiting saved depth ∧ next.GaveUp t
  | .whole t (.goOn false) => ∀ saved depth, s.state.place t = .waiting saved depth →
      next.state.place t = .outside → next.Holds t depth
  | .restore t false => ∀ saved depth, s.state.place t = .waiting saved depth → next.Holds t depth
  | _ => True

structure Tracked (s : Interleaving) : Prop where
  encoded : Encoded s.state
  clearing : ∀ t saved depth, s.paused t = some (.clearing saved depth) →
    count s.state.lock.lockInfo = 0 ∧ lower saved = t ∧ count saved = depth
  restoring : ∀ t saved depth, s.paused t = some (.restoring saved depth) →
    count s.state.lock.lockInfo = 0 ∧ s.state.place t = .waiting saved depth

section

variable {s next : Interleaving} {t : ThreadId}

theorem GaveUp.of_free (encoded : Encoded s.state) (free : count s.state.lock.lockInfo = 0)
    (t : ThreadId) : s.GaveUp t := by
  constructor
  · exact encoded.held_eq_zero free t
  · intro u
    have zero := (Monitor.free_iff _).mpr free
    exact ⟨_, if_pos zero⟩

theorem Holds.of_restore (encoded : Encoded s.state) (free : count s.state.lock.lockInfo = 0)
    {saved : Word} {depth : Nat} (waits : s.state.place t = .waiting saved depth)
    {killed : Bool} {result : Result} (done : s.state.lock.restore saved killed = some result)
    (paused : ThreadId → Option Pause) :
    Holds { state := s.state.finishWait t depth result, paused := paused } t depth := by
  obtain ⟨owner, same⟩ := encoded.waiting t saved depth waits
  obtain ⟨after, ended, low, high⟩ := Lock.restore_word done
  have finished : s.state.finishWait t depth result = { s.state with
      lock := after
      place := Function.update s.state.place t .outside
      held := Function.update s.state.held t depth } := by
    rcases ended with rfl | rfl <;> rfl
  rw [finished]
  have again : Function.update s.state.held t depth t = depth := Function.update_self _ _ _
  refine ⟨low.trans owner, high.trans same, again, ?_⟩
  intro u other
  have nobody := encoded.held_eq_zero free u
  exact (Function.update_of_ne other depth _).trans nobody

end

namespace Tracked

variable {s next : Interleaving} {t : ThreadId}

theorem of_none (encoded : Encoded next.state) (none : ∀ u, next.paused u = none) :
    Tracked next := by
  refine ⟨encoded, ?_, ?_⟩
  · intro u saved depth paused
    rw [none u] at paused
    cases paused
  · intro u saved depth paused
    rw [none u] at paused
    cases paused

theorem whole (tracked : Tracked s) {action : Action}
    (alone : action = .wake ∨ ∀ u, s.paused u = none)
    (fits : count s.state.lock.lockInfo + 1 < 2 ^ 15)
    (careful : (∃ operation, action = .perform operation) → s.state.held t = 0 →
      count s.state.lock.lockInfo = 0 ∧ lower s.state.lock.lockInfo ≠ t)
    {state : State} (run : s.state.exec t action = some state) :
    Tracked { s with state := state } := by
  have encoded := tracked.encoded.step ⟨t, action, run, fits, careful⟩
  rcases alone with rfl | none
  · obtain rfl := Option.some.inj run
    refine ⟨encoded, ?_, ?_⟩
    · intro u saved depth paused
      dsimp only
      rw [State.resume_info]
      exact tracked.clearing u saved depth paused
    · intro u saved depth paused
      dsimp only
      rw [State.resume_info, State.resume_place]
      exact tracked.restoring u saved depth paused
  · exact of_none encoded none

theorem only_paused {new : Pause} (none : ∀ u, s.paused u = none) {u : ThreadId} {pause : Pause}
    (paused : Function.update s.paused t (some new) u = some pause) : u = t ∧ pause = new := by
  rcases eq_or_ne u t with rfl | other
  · rw [Function.update_self] at paused
    exact ⟨rfl, (Option.some.inj paused).symm⟩
  · rw [Function.update_of_ne other, none u] at paused
    cases paused

theorem clear (tracked : Tracked s) (none : ∀ u, s.paused u = none)
    (holds : s.state.held t ≠ 0) :
    Tracked {
      state := { s.state with
        lock := s.state.lock.clear
        held := Function.update s.state.held t 0 }
      paused := Function.update s.paused t
        (some (.clearing s.state.lock.lockInfo (s.state.held t))) } := by
  obtain ⟨owner, depth⟩ := tracked.encoded.owner_eq holds
  have free := count_cleared s.state.lock.lockInfo
  refine ⟨?_, ?_, ?_⟩
  · refine Encoded.of_update rfl ?_ (.inr ⟨rfl, free⟩) tracked.encoded.waiting
    intro u other
    rw [tracked.encoded.held u, if_neg (by rw [owner]; exact other.symm)]
  · intro u saved n paused
    obtain ⟨rfl, only⟩ := only_paused none paused
    cases only
    exact ⟨free, owner, depth⟩
  · intro u saved n paused
    cases (only_paused none paused).2

theorem paused_none (alone : ∀ u, u ≠ t → s.paused u = none) (u : ThreadId) :
    Function.update s.paused t none u = none := by
  rcases eq_or_ne u t with rfl | other
  · rw [Function.update_self]
  · rw [Function.update_of_ne other, alone u other]

theorem enqueued (tracked : Tracked s) {saved : Word} {depth : Nat}
    (paused : s.paused t = some (.clearing saved depth)) {result : Result}
    (done : s.state.lock.enqueue t saved = some result) :
    Encoded (s.state.finishEnqueue t depth result) ∧
      count (s.state.finishEnqueue t depth result).lock.lockInfo = 0 ∧
      (s.state.finishEnqueue t depth result).place t = .waiting saved depth := by
  obtain ⟨free, owner, same⟩ := tracked.clearing t saved depth paused
  obtain ⟨after, resumed, rfl, now⟩ := Lock.enqueue_free free done
  have nobody := tracked.encoded.held_eq_zero free
  have queued : Encoded { s.state with
      lock := after
      place := Function.update s.state.place t (.waiting saved depth)
      blockQueue := Function.update s.state.blockQueue t (some .condVar) } := by
    have unchanged : s.state.held = Function.update s.state.held t 0 := by
      rw [← nobody t, Function.update_eq_self]
    exact Encoded.of_update unchanged (fun u _ => nobody u) (.inr ⟨rfl, now⟩)
      fun u word n waits => tracked.encoded.waiting_update owner same waits
  refine ⟨queued.resumeOption resumed, ?_, ?_⟩
  · cases resumed with
    | none => exact now
    | some woken => exact (congrArg count (State.resume_info _ woken)).trans now
  · have place := Function.update_self t (Place.waiting saved depth) s.state.place
    cases resumed with
    | none => exact place
    | some woken => exact (congrFun (State.resume_place _ woken) t).trans place

theorem leaveLoop (tracked : Tracked s) (none : ∀ u, s.paused u = none) {saved : Word}
    {depth : Nat} (waits : s.state.place t = .waiting saved depth)
    (free : s.state.lock.lockInfo &&& semaphoreMask = 0) :
    Tracked { s with
      paused := Function.update s.paused t (some (.restoring saved depth)) } := by
  refine ⟨tracked.encoded, ?_, ?_⟩
  · intro u word n paused
    cases (only_paused none paused).2
  · intro u word n paused
    obtain ⟨rfl, only⟩ := only_paused none paused
    cases only
    exact ⟨(Monitor.free_iff _).mp free, waits⟩

theorem step (tracked : Tracked s) (taken : CarefulStep s next) : Tracked next := by
  obtain ⟨move, run, allowed⟩ := taken
  cases move with
  | whole t action =>
      obtain ⟨alone, fits, careful⟩ := allowed
      dsimp only [exec] at run
      split at run
      · obtain ⟨state, done, rfl⟩ := Option.map_eq_some_iff.mp run
        exact tracked.whole alone fits careful done
      · cases run
  | clear t =>
      dsimp only [exec] at run
      split at run
      · obtain rfl := Option.some.inj run
        exact tracked.clear allowed.1 allowed.2
      · cases run
  | enqueue t =>
      dsimp only [exec] at run
      split at run
      · next saved depth paused =>
          obtain ⟨result, done, rfl⟩ := Option.map_eq_some_iff.mp run
          exact of_none (tracked.enqueued paused done).1 (paused_none allowed)
      · cases run
  | leaveLoop t =>
      dsimp only [exec] at run
      split at run
      · next saved depth waits =>
          split at run
          · next ready =>
              obtain rfl := Option.some.inj run
              exact tracked.leaveLoop allowed waits ready.2.2
          · cases run
      · cases run
  | restore t killed =>
      dsimp only [exec] at run
      split at run
      · next saved depth paused =>
          obtain ⟨free, waits⟩ := tracked.restoring t saved depth paused
          obtain ⟨result, done, rfl⟩ := Option.map_eq_some_iff.mp run
          rw [← Lock.resumeWait_eq ((Monitor.free_iff _).mpr free) t] at done
          exact of_none (tracked.encoded.resumeWait waits done) (paused_none allowed)
      · cases run

end Tracked

theorem tracked_of_careful {s : Interleaving} (reached : Reachable Initial CarefulStep s) :
    Tracked s := by
  refine reached.invariant Tracked ?_ fun _ _ tracked taken => tracked.step taken
  intro first initial
  exact Tracked.of_none (encoded_of_initial initial.1) initial.2

section

variable {s next : Interleaving} {t : ThreadId}

theorem Tracked.wait (tracked : Tracked s) {state : State}
    (careful : s.state.held t = 0 →
      count s.state.lock.lockInfo = 0 ∧ lower s.state.lock.lockInfo ≠ t)
    (run : s.state.exec t (.perform .wait) = some state) {saved : Word} {depth : Nat}
    (waits : state.place t = .waiting saved depth) :
    depth = s.state.held t ∧ count state.lock.lockInfo = 0 := by
  dsimp only [State.exec] at run
  split at run
  · next outside =>
      obtain ⟨result, done, rfl⟩ := Option.map_eq_some_iff.mp run
      rcases Nat.eq_zero_or_pos (s.state.held t) with none | holds
      · -- a call that is rejected does not suspend
        have rejects := (Lock.rejects_iff _ _).mpr (careful none)
        obtain rfl := Option.some.inj ((rejects .wait).symm.trans done)
        have still : s.state.place t = .waiting saved depth := waits
        rw [outside] at still
        cases still
      · obtain ⟨owner, _⟩ := tracked.encoded.owner_eq holds.ne'
        have free := count_cleared s.state.lock.lockInfo
        have split : s.state.lock.clear.enqueue t s.state.lock.lockInfo = some result := by
          rw [← Lock.waitCond_eq ((owner_iff _ _).mpr owner)]
          exact done
        obtain ⟨after, resumed, rfl, now⟩ := Lock.enqueue_free free split
        have place := Function.update_self t
          (Place.waiting s.state.lock.lockInfo (s.state.held t)) s.state.place
        cases resumed with
        | none =>
            cases place.symm.trans waits
            exact ⟨rfl, now⟩
        | some woken =>
            cases ((congrFun (State.resume_place _ woken) t).trans place).symm.trans waits
            exact ⟨rfl, (congrArg count (State.resume_info _ woken)).trans now⟩
  · cases run

theorem Tracked.goOn (tracked : Tracked s) {killed : Bool} {state : State}
    (run : s.state.exec t (.goOn killed) = some state) {saved : Word} {depth : Nat}
    (waits : s.state.place t = .waiting saved depth) (back : state.place t = .outside) :
    Holds { s with state := state } t depth := by
  dsimp only [State.exec] at run
  split at run
  · rw [waits] at run
    obtain ⟨result, done, rfl⟩ := Option.map_eq_some_iff.mp run
    rcases Nat.eq_zero_or_pos (count s.state.lock.lockInfo) with free | taken
    · rw [Lock.resumeWait_eq ((Monitor.free_iff _).mpr free)] at done
      exact Holds.of_restore tracked.encoded free waits done s.paused
    · have busy : s.state.lock.lockInfo &&& semaphoreMask ≠ 0 :=
        fun free => taken.ne' ((Monitor.free_iff _).mp free)
      rw [Lock.resumeWait, if_pos busy] at done
      obtain rfl := Option.some.inj done
      have still : s.state.place t = .outside := back
      rw [waits] at still
      cases still
  · cases run

end

/-- As long as nobody else uses the monitor while a thread is preempted in its wait, a thread
that waits gives the monitor up and has it as often again where it returns. -/
theorem wait_restores {s : Interleaving} (reached : Reachable Initial CarefulStep s)
    {move : Move} {next : Interleaving} (taken : s.exec move = some next)
    (allowed : s.Allowed move) : s.WaitRight next move := by
  have tracked := tracked_of_careful reached
  have later := tracked.step ⟨move, taken, allowed⟩
  cases move with
  | whole t action =>
      obtain ⟨_, fits, careful⟩ := allowed
      dsimp only [exec] at taken
      split at taken
      · obtain ⟨state, run, rfl⟩ := Option.map_eq_some_iff.mp taken
        cases action with
        | lock => trivial
        | wake => trivial
        | perform operation =>
            cases operation with
            | wait =>
                intro saved depth waits
                obtain ⟨same, free⟩ := tracked.wait (careful ⟨_, rfl⟩) run waits
                exact ⟨same, GaveUp.of_free later.encoded free t⟩
            | unlock => trivial
            | signal => trivial
            | broadcast => trivial
        | goOn killed =>
            cases killed with
            | true => trivial
            | false =>
                intro saved depth waits back
                exact tracked.goOn run waits back
      · cases taken
  | clear t =>
      dsimp only [exec] at taken
      split at taken
      · obtain rfl := Option.some.inj taken
        exact ⟨_, Function.update_self t _ s.paused⟩
      · cases taken
  | enqueue t =>
      intro saved depth paused
      dsimp only [exec] at taken
      rw [paused] at taken
      obtain ⟨result, done, rfl⟩ := Option.map_eq_some_iff.mp taken
      obtain ⟨encoded, free, place⟩ := tracked.enqueued paused done
      exact ⟨place, GaveUp.of_free encoded free t⟩
  | leaveLoop t => trivial
  | restore t killed =>
      cases killed with
      | true => trivial
      | false =>
          intro saved depth waits
          dsimp only [exec] at taken
          split at taken
          · next word n paused =>
              obtain ⟨free, place⟩ := tracked.restoring t word n paused
              obtain ⟨result, done, rfl⟩ := Option.map_eq_some_iff.mp taken
              cases place.symm.trans waits
              exact Holds.of_restore tracked.encoded free place done _
          · cases taken

private def idle : Interleaving where
  state := {
    lock := ⟨0, [], []⟩
    place := fun _ => .outside
    blockQueue := fun _ => none
    held := fun _ => 0 }
  paused := fun _ => none

private def holding : Interleaving :=
  { idle with state := idle.state.enter 1 }

private def suspended : Interleaving :=
  { holding with
    state := holding.state.finish 1 .wait (.onCondVarQueue ⟨0, [], [1]⟩ none 0x00020001) }

private theorem idle_initial : idle.Initial :=
  ⟨⟨rfl, fun _ => ⟨rfl, rfl, rfl⟩⟩, fun _ => rfl⟩

theorem wait_restores_suspended : holding.WaitRight suspended (.whole 1 (.perform .wait)) := by
  have lockAllowed : idle.Allowed (.whole 1 .lock) := by
    refine ⟨.inr fun _ => rfl, by decide, ?_⟩
    intro ⟨_, performs⟩
    cases performs
  have reached := (Reachable.start idle_initial).tail
    (show CarefulStep idle holding from ⟨.whole 1 .lock, rfl, lockAllowed⟩)
  refine wait_restores reached rfl ⟨.inr fun _ => rfl, by decide, ?_⟩
  intro _ outside
  exact absurd outside (by decide)

private def preempted : Interleaving where
  state := suspended.state.resume 1
  paused := Function.update suspended.paused 1 (some (.restoring 0x00020001 1))

private def overtaken : Interleaving :=
  { preempted with state := preempted.state.enter 2 }

private def returned : Interleaving where
  state := overtaken.state.finishWait 1 1 (.returned ⟨0x00020001, [], []⟩ none)
  paused := Function.update overtaken.paused 1 none

/-- The first thread has left the loop of its wait when the second one takes the monitor. -/
theorem wait_overtaken :
    ¬ ∀ s, Reachable Initial Step s → ∀ move next, s.exec move = some next →
      s.WaitRight next move := by
  intro claim
  have taken : Step idle holding := ⟨.whole 1 .lock, rfl⟩
  have waits : Step holding suspended := ⟨.whole 1 (.perform .wait), rfl⟩
  have wakes : Step suspended { suspended with state := suspended.state.resume 1 } :=
    ⟨.whole 1 .wake, rfl⟩
  have leaves : Step { suspended with state := suspended.state.resume 1 } preempted :=
    ⟨.leaveLoop 1, rfl⟩
  have overtakes : Step preempted overtaken := ⟨.whole 2 .lock, rfl⟩
  have reached := (((((Reachable.start idle_initial).tail taken).tail waits).tail wakes).tail
    leaves).tail overtakes
  have right := claim overtaken reached (.restore 1 false) returned rfl 0x00020001 1 rfl
  have alone : returned.state.held 2 = 0 := right.2.2.2 2 (by decide)
  exact absurd alone (by decide)

end Interleaving

end LaTTe.Threads.Monitor
