import LaTTe.Data.Transition
import LaTTe.Threads.RunQueueRuns

namespace LaTTe.Threads.RunQueue

open LaTTe.Data
open LaTTe.Threads.Alarm (Scheduler)

/-! The queues over the runs of the machine. -/

variable {Thread Queue : Type} {m : Machine Thread Queue} {s s' : Scheduler Thread Queue}
  {event : Event Thread Queue} {tid : Thread}

def Machine.Allowed (m : Machine Thread Queue) : Event Thread Queue → Prop
  | .suspend tid => (m.ctx tid).status = .running →
      m.threadQtail (m.ctx tid).priority = some tid → m.threadQhead (m.ctx tid).priority = some tid
  | .setPriority tid _ => (m.ctx tid).status ≠ .dead
  | _ => True

/-- The links of the machine hold the queues, with a pointer to the end of each that is not
empty, every thread is in the queue that its context names, and the current thread is the
first one of the highest queue. -/
structure Right (m : Machine Thread Queue) (s : Scheduler Thread Queue) : Prop where
  tracks : Tracks m s
  alarms : s.Alarms
  dispatched : m.Dispatched

theorem Right.going (right : Right m s) :
    Going m.currentThread (m.highest ≠ none) m s :=
  ⟨right.tracks, rfl, fun yes => right.tracks.runs (right.dispatched.2.resolve_left yes)⟩

theorem lists_idle (ctx : Thread → Alarm.Context Queue) (root : Root Queue) :
    (Scheduler.idle ctx).lists root = [] := by
  cases root <;> rfl

theorem Right.initial (initial : m.Initial) : Right m (Scheduler.idle m.ctx) where
  tracks := by
    constructor
    · constructor
      · rfl
      · constructor
        · intro root
          rw [lists_idle]
          exact congrFun initial.queues root
        · intro root
          rw [lists_idle]
          exact .nil
        · intro root root' t member
          rw [lists_idle] at member
          cases member
      · constructor
        · exact fun root => congrFun initial.alarms root
        · exact fun _ => .nil
        · intro _ _ t member
          cases member
      · exact fun _ nonempty => absurd rfl nonempty
    · constructor
      · exact fun {t _} => iff_of_false List.not_mem_nil fun both => initial.idle t both.1
      · intro t queue
        refine iff_of_false List.not_mem_nil fun blocked => ?_
        exact Option.some_ne_none queue (blocked.symm.trans (initial.unblocked t))
      · exact fun {t} _ => initial.unblocked t
      · exact fun _ => .nil
      · exact fun _ => .nil
      · exact initial.priority
  alarms := Scheduler.alarms_of_initial ⟨rfl, initial.silent⟩
  dispatched := by
    refine ⟨initial.settled, .inl ?_⟩
    apply highestBelow_none
    exact fun priority => congrFun initial.queues (.ready priority)

section

variable [DecidableEq Thread]

theorem alarms_setPriority (alarms : s.Alarms) (tid : Thread) (prio : Nat) :
    (s.setPriorityThread tid prio).Alarms := by
  rw [Scheduler.setPriorityThread]
  have kept : ∀ s : Scheduler Thread Queue, s.Alarms →
      (s.setCtx tid { s.ctx tid with priority := prio }).Alarms := by
    intro s alarms
    exact alarms.setCtx _ rfl rfl rfl (alarms.suspended tid)
  apply kept
  split
  · exact (alarms.setReady _ _).setReady _ _
  · exact alarms

variable [DecidableEq Queue]

theorem alarms_wake (alarms : s.Alarms) (threads : List Thread) :
    (threads.foldl Scheduler.iresumeThread s).Alarms := by
  induction threads generalizing s with
  | nil => exact alarms
  | cons tid rest ih => exact ih (alarms.iresumeThread tid)

theorem placeAtEnd_first (m : Machine Thread Queue) (tid : Thread) (priority : Nat) :
    (m.placeAtEnd tid priority).threadQhead priority ≠ none := by
  rw [Machine.placeAtEnd]
  cases head : m.threadQhead priority with
  | none =>
      show Function.update m.queues.first (.ready priority) (some tid) (.ready priority) ≠ none
      rw [Function.update_self]
      exact Option.some_ne_none tid
  | some first =>
      have kept : m.threadQhead priority ≠ none := by
        rw [head]
        exact Option.some_ne_none first
      cases m.threadQtail priority with
      | none => exact kept
      | some last => exact kept

variable [Fintype Thread]

theorem Right.perform (right : Right m s) (enabled : m.Enabled event) (allowed : m.Allowed event) :
    Settles (m.highest ≠ none) (m.perform event) (s.perform event) ∧ (s.perform event).Alarms := by
  have going := right.going
  have refines := right.tracks.refines
  cases event with
  | suspendOnQ tid queue timeout now =>
      refine ⟨going.suspendOnQThread tid ?_ queue timeout now,
        right.alarms.suspendOnQThread tid queue enabled.2⟩
      intro awake member
      have flagged := (right.alarms.mem_iff tid).mp member
      exact Bool.false_ne_true ((right.alarms.silent awake).symm.trans flagged)
  | wake threads => exact ⟨(going.wake threads).settles, alarms_wake right.alarms threads⟩
  | resume tid => exact ⟨(going.resumeThread tid).settles, right.alarms.resumeThread tid⟩
  | suspend tid =>
      refine ⟨going.suspendThread tid ?_, right.alarms.suspendThread tid⟩
      intro last
      have member := List.mem_of_getLast? last
      have running := (right.tracks.queued.ready_iff.mp member).1
      have first := allowed
      simp only [Machine.Allowed, refines.context] at first
      rw [← refines.threadQhead_eq]
      apply first running
      rw [refines.tails _ (List.ne_nil_of_mem member), last]
  | stop tid => exact ⟨(going.stopThread tid).settles, right.alarms.stopThread tid⟩
  | kill tid waiters =>
      obtain ⟨rfl, running⟩ := enabled
      rw [refines.context] at running
      have busy := right.tracks.busy running
      have woken := going.wake waiters
      refine ⟨going.killThread busy waiters, (alarms_wake right.alarms waiters).killThread ?_⟩
      rw [← woken.current]
      exact woken.tracks.current_running (woken.runs busy)
  | signal now blocked =>
      exact ⟨(going.alarmException now blocked).settles,
        right.alarms.step (.signal now blocked) enabled⟩
  | setPriority tid prio =>
      have alive : (s.ctx tid).status ≠ .dead := by
        rw [← refines.context]
        exact allowed
      exact ⟨going.setPriorityThread tid alive enabled, alarms_setPriority right.alarms tid prio⟩
  | yield tid =>
      obtain ⟨rfl, running⟩ := enabled
      rw [refines.context] at running
      exact ⟨going.yieldThread (right.tracks.busy running), right.alarms.setReady _ _⟩

theorem Right.step (right : Right m s) (enabled : m.Enabled event) (allowed : m.Allowed event) :
    Right (m.step event) (s.perform event) := by
  obtain ⟨⟨⟨refines, queued⟩, dispatched⟩, alarms⟩ := right.perform enabled allowed
  rw [Machine.step]
  split
  · exact ⟨⟨refines.reschedule, queued⟩, alarms, Machine.reschedule_dispatched _⟩
  · rename_i busy
    exact ⟨⟨refines.intsRestore, queued⟩, alarms, dispatched busy⟩

theorem Refines.of_step (refines : Refines (m.step event) s') : Refines (m.perform event) s' := by
  have rescheduled : ∀ m : Machine Thread Queue, Refines m.reschedule s' → Refines m s' := by
    intro m refines
    rw [Machine.reschedule] at refines
    cases highest : m.highest with
    | none =>
        rw [highest] at refines
        exact ⟨refines.ctx, refines.queues, refines.alarms, refines.tails⟩
    | some tid =>
        rw [highest] at refines
        exact ⟨refines.ctx, refines.queues, refines.alarms, refines.tails⟩
  rw [Machine.step] at refines
  split at refines
  · exact rescheduled _ refines
  · rw [Machine.intsRestore] at refines
    split at refines
    · exact rescheduled _ refines
    · exact refines

theorem suspendThread_tail (m : Machine Thread Queue) (tid : Thread) :
    (m.suspendThread tid).threadQtail = m.threadQtail := by
  have rescheduled : ∀ m : Machine Thread Queue, m.reschedule.threadQtail = m.threadQtail := by
    intro m
    rw [Machine.reschedule]
    cases m.highest <;> rfl
  rw [Machine.suspendThread]
  split
  · rfl
  · dsimp only
    split
    · rfl
    · split
      · exact rescheduled _
      · rfl

theorem setPriorityThread_queue (prio : Nat) (awake : (m.ctx tid).status ≠ .suspended) :
    (m.setPriorityThread tid prio).threadQtail prio = some tid ∧
      (m.setPriorityThread tid prio).threadQhead prio ≠ none := by
  rw [Machine.setPriorityThread, if_neg awake]
  generalize (m.leaveReady tid (m.ctx tid).priority).getD m = m
  have tail : ((m.setCtx tid { m.ctx tid with priority := prio }).placeAtEnd tid prio).threadQtail
      prio = some tid := Function.update_self _ _ _
  have first := placeAtEnd_first (m.setCtx tid { m.ctx tid with priority := prio }) tid prio
  dsimp only
  split
  · exact ⟨tail, first⟩
  · exact ⟨tail, first⟩

/-- A step that is not allowed loses the end of a queue, or puts a thread that has ended into
one. -/
theorem Right.not_step (right : Right m s) (forbidden : ¬m.Allowed event) :
    ¬Right (m.step event) (s.perform event) := by
  intro after
  have refines := after.tracks.refines.of_step
  have queued := right.tracks.queued
  cases event with
  | suspend tid =>
      simp only [Machine.Allowed, not_forall] at forbidden
      obtain ⟨running, last, notFirst⟩ := forbidden
      rw [right.tracks.refines.context] at running last notFirst
      rw [right.tracks.refines.threadQhead_eq] at notFirst
      have awake : (s.ctx tid).status ≠ .suspended := by
        rw [running]
        decide
      have ready : (s.suspendThread tid).ready (s.ctx tid).priority =
          (s.ready (s.ctx tid).priority).erase tid := by
        rw [Scheduler.suspendThread, if_neg awake]
        dsimp only
        rw [Scheduler.setCtx_self]
        exact Scheduler.ready_setReady
      have nonempty : (s.ready (s.ctx tid).priority).erase tid ≠ [] := by
        have member := queued.ready_iff.mpr ⟨running, rfl⟩
        cases list : s.ready (s.ctx tid).priority with
        | nil =>
            rw [list] at member
            cases member
        | cons first rest =>
            rw [list] at notFirst
            have other : first ≠ tid := fun same => notFirst (congrArg some same)
            rw [List.erase_cons_tail (by simpa using other)]
            exact List.cons_ne_nil _ _
      have tail : (m.suspendThread tid).threadQtail (s.ctx tid).priority = _ :=
        refines.tails _ (ready.trans_ne nonempty)
      rw [suspendThread_tail, last] at tail
      have member := List.mem_of_getLast? tail.symm
      rw [show (s.perform (.suspend tid)).ready _ = _ from ready] at member
      exact (queued.ready_nodup _).not_mem_erase member
  | setPriority tid prio =>
      have dead : (s.ctx tid).status = .dead := by
        rw [← right.tracks.refines.context]
        exact not_not.mp forbidden
      have awake : (m.ctx tid).status ≠ .suspended := by
        rw [right.tracks.refines.context, dead]
        decide
      have notRunning : (s.ctx tid).status ≠ .running := by
        rw [dead]
        decide
      have ready : (s.setPriorityThread tid prio).ready = s.ready := by
        rw [Scheduler.setPriorityThread, if_neg notRunning]
        rfl
      obtain ⟨tail, first⟩ := setPriorityThread_queue prio awake
      have head : (m.setPriorityThread tid prio).threadQhead prio = _ := refines.threadQhead_eq prio
      have nonempty : (s.perform (.setPriority tid prio)).ready prio ≠ [] := by
        intro empty
        rw [empty] at head
        exact first head
      have last : (m.setPriorityThread tid prio).threadQtail prio = _ :=
        refines.tails prio nonempty
      have member := List.mem_of_getLast? (last.symm.trans tail)
      rw [show (s.perform (.setPriority tid prio)).ready = _ from ready] at member
      exact notRunning (queued.ready_iff.mp member).1
  | _ => exact forbidden trivial

def exec (state : Machine Thread Queue × Scheduler Thread Queue) (event : Event Thread Queue) :
    Option (Machine Thread Queue × Scheduler Thread Queue) :=
  if state.1.Enabled event then some (state.1.step event, state.2.perform event) else none

theorem Right.exec_iff {state next : Machine Thread Queue × Scheduler Thread Queue}
    (right : Right state.1 state.2) (taken : exec state event = some next) :
    Right next.1 next.2 ↔ state.1.Allowed event := by
  rw [exec] at taken
  split at taken
  · rename_i enabled
    cases taken
    refine ⟨fun after => ?_, right.step enabled⟩
    by_contra forbidden
    exact right.not_step forbidden after
  · cases taken

def twoThreads : Machine Bool Unit where
  queues := ⟨fun _ => none, fun _ => none⟩
  threadQtail _ := none
  alarms := ⟨fun _ => none, fun _ => none⟩
  ctx _ := ⟨.suspended, false, false, false, 5, none, 0, 0⟩
  currentThread := false
  needReschedule := false

theorem twoThreads_initial : twoThreads.Initial where
  queues := rfl
  alarms := rfl
  idle := by decide
  silent _ := rfl
  unblocked _ := rfl
  priority := by decide
  settled := rfl

instance (m : Machine Thread Queue) (event : Event Thread Queue) :
    Decidable (m.Allowed event) :=
  match event with
  | .suspend _ => inferInstanceAs (Decidable (_ → _ → _))
  | .setPriority _ _ => inferInstanceAs (Decidable (_ ≠ _))
  | .suspendOnQ _ _ _ _ | .wake _ | .resume _ | .stop _ | .kill _ _ | .signal _ _ | .yield _ =>
      isTrue trivial

def started : List (Event Bool Unit) :=
  [.wake [false, true], .suspendOnQ false none 5 1, .setPriority true 7, .yield true,
    .suspend true, .resume true, .signal 10 false]

example : (twoThreads.step (.wake [false, true])).currentThread = false ∧
    (twoThreads.step (.wake [false, true])).threadQtail 5 = some true := by decide

end

end LaTTe.Threads.RunQueue
