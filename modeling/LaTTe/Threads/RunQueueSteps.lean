import LaTTe.Threads.RunQueueRight

namespace LaTTe.Threads.Alarm.Scheduler

variable {Thread Queue : Type} [DecidableEq Thread] [DecidableEq Queue]
  {s : Scheduler Thread Queue} {tid t : Thread}

/-! The first steps of `iresumeThread`. -/

def release (s : Scheduler Thread Queue) (tid : Thread) : Scheduler Thread Queue :=
  (if (s.ctx tid).alarm then s.removeFromAlarmQ tid else s).unblock tid

theorem iresumeThread_running (running : (s.ctx tid).status = .running) :
    s.iresumeThread tid = s :=
  if_pos running

def start (s : Scheduler Thread Queue) (tid : Thread) : Scheduler Thread Queue :=
  (s.release tid).setCtx tid { (s.release tid).ctx tid with status := .running }

theorem iresumeThread_idle (idle : (s.ctx tid).status ≠ .running) :
    s.iresumeThread tid = (s.start tid).setReady ((s.start tid).ctx tid).priority
      ((s.start tid).ready ((s.start tid).ctx tid).priority ++ [tid]) :=
  if_neg idle

theorem ready_release : (s.release tid).ready = s.ready := by
  have unblocked : ∀ s : Scheduler Thread Queue, (s.unblock tid).ready = s.ready := by
    intro s
    rw [unblock]
    cases (s.ctx tid).blockqueue <;> rfl
  rw [release, unblocked]
  split <;> rfl

theorem ctx_release : (s.release tid).ctx tid =
    { s.ctx tid with alarm := false, blockqueue := none } := by
  have unblocked : ∀ s : Scheduler Thread Queue,
      (s.unblock tid).ctx tid = { s.ctx tid with blockqueue := none } := by
    intro s
    rw [unblock]
    cases free : (s.ctx tid).blockqueue with
    | none =>
        show s.ctx tid = _
        rw [← free]
    | some queue => exact setCtx_self
  rw [release, unblocked]
  cases silent : (s.ctx tid).alarm with
  | true =>
      rw [if_pos rfl, removeFromAlarmQ]
      simp [setCtx]
  | false => rw [if_neg Bool.false_ne_true, ← silent]

theorem ctx_release_of_ne (other : t ≠ tid) : (s.release tid).ctx t = s.ctx t := by
  rw [release, (unblock_spec _ tid).2.1 t other]
  split
  · exact setCtx_of_ne other
  · rfl

theorem ready_start : (s.start tid).ready = s.ready :=
  ready_release

theorem ctx_start : (s.start tid).ctx tid =
    { s.ctx tid with alarm := false, blockqueue := none, status := .running } := by
  rw [start, setCtx_self, ctx_release]

theorem ctx_start_of_ne (other : t ≠ tid) : (s.start tid).ctx t = s.ctx t :=
  (setCtx_of_ne other).trans (ctx_release_of_ne other)

namespace Queued

theorem release (queued : s.Queued) (tid : Thread) : (s.release tid).Queued := by
  rw [Scheduler.release]
  apply unblock
  split
  · exact queued.removeFromAlarmQ tid
  · exact queued

theorem iresumeThread (queued : s.Queued) (tid : Thread) : (s.iresumeThread tid).Queued := by
  by_cases running : (s.ctx tid).status = .running
  · rw [iresumeThread_running running]
    exact queued
  · rw [iresumeThread_idle running, ready_start, ← ready_release]
    have context : (s.start tid).ctx tid =
        { (s.release tid).ctx tid with status := .running } := setCtx_self
    rw [context]
    apply (queued.release tid).start
    · rw [ctx_release]
      exact running
    · rw [ctx_release]
    · rfl
    · rw [ctx_release]
    · exact (queued.release tid).range tid

end Queued

end LaTTe.Threads.Alarm.Scheduler

namespace LaTTe.Threads.RunQueue

open LaTTe.Data
open LaTTe.Threads.Alarm (Context Scheduler Time)

variable {Thread Queue : Type} {m m' : Machine Thread Queue} {s s' : Scheduler Thread Queue}
  {tid : Thread}

structure Tracks (m : Machine Thread Queue) (s : Scheduler Thread Queue) : Prop where
  refines : Refines m s
  queued : s.Queued

structure Runs (m : Machine Thread Queue) (s : Scheduler Thread Queue) : Prop where
  head : (s.ready (s.ctx m.currentThread).priority).head? = some m.currentThread
  above : m.needReschedule = false →
    ∀ priority, (s.ctx m.currentThread).priority < priority → s.ready priority = []

theorem Tracks.current_running (tracks : Tracks m s) (runs : Runs m s) :
    (s.ctx m.currentThread).status = .running :=
  (tracks.queued.ready_iff.mp (List.mem_of_mem_head? runs.head)).1

theorem Runs.append (runs : Runs m s) {priority : Nat}
    (ready : s'.ready = Function.update s.ready priority (s.ready priority ++ [tid]))
    (context : s'.ctx m.currentThread = s.ctx m.currentThread)
    (current : m'.currentThread = m.currentThread)
    (pending : m'.needReschedule = false → m.needReschedule = false ∧
      (s.ready priority = [] → ¬(s.ctx m.currentThread).priority < priority)) : Runs m' s' := by
  constructor
  · rw [current, context, ready]
    by_cases same : (s.ctx m.currentThread).priority = priority
    · rw [same, Function.update_self, ← same, List.head?_append, runs.head]
      rfl
    · rw [Function.update_of_ne same]
      exact runs.head
  · intro settled priority' above
    rw [current, context] at above
    obtain ⟨settled', notAbove⟩ := pending settled
    have empty := runs.above settled' priority' above
    rw [ready]
    by_cases same : priority' = priority
    · subst same
      exact absurd above (notAbove empty)
    · rw [Function.update_of_ne same]
      exact empty

theorem free_of_queued (queued : s.Queued) (idle : (s.ctx tid).status ≠ .running)
    (unblocked : (s.ctx tid).blockqueue = none) : Links.Free s.lists tid := by
  intro root member
  cases root with
  | ready priority => exact idle (queued.ready_iff.mp member).1
  | waiting queue =>
      have blocked := queued.waiting_iff.mp member
      rw [unblocked] at blocked
      cases blocked

theorem Refines.pending (refines : Refines m s) (needReschedule : Bool) :
    Refines { m with needReschedule := needReschedule } s :=
  ⟨refines.ctx, refines.queues, refines.alarms, refines.tails⟩

theorem Refines.dispatch (refines : Refines m s) (tid : Thread) (needReschedule : Bool) :
    Refines { m with currentThread := tid, needReschedule := needReschedule } s :=
  ⟨refines.ctx, refines.queues, refines.alarms, refines.tails⟩

namespace Machine

variable [DecidableEq Thread] [DecidableEq Queue] [Fintype Thread]

def release (m : Machine Thread Queue) (tid : Thread) : Machine Thread Queue :=
  (if (m.ctx tid).alarm then m.removeFromAlarmQ tid else m).unblock tid

theorem release_current : (m.release tid).currentThread = m.currentThread ∧
    (m.release tid).needReschedule = m.needReschedule := by
  have unblocked : ∀ m : Machine Thread Queue,
      (m.unblock tid).currentThread = m.currentThread ∧
        (m.unblock tid).needReschedule = m.needReschedule := by
    intro m
    rw [unblock]
    cases (m.ctx tid).blockqueue with
    | none => exact ⟨rfl, rfl⟩
    | some queue =>
        dsimp only
        rw [Refines.unlink_eq]
        exact ⟨rfl, rfl⟩
  have removed : (m.removeFromAlarmQ tid).currentThread = m.currentThread ∧
      (m.removeFromAlarmQ tid).needReschedule = m.needReschedule := by
    simp only [removeFromAlarmQ]
    split <;> exact ⟨rfl, rfl⟩
  rw [release, (unblocked _).1, (unblocked _).2]
  split
  · exact removed
  · exact ⟨rfl, rfl⟩

def start (m : Machine Thread Queue) (tid : Thread) : Machine Thread Queue :=
  (m.release tid).setCtx tid { (m.release tid).ctx tid with status := .running }

theorem iresumeThread_running (running : (m.ctx tid).status = .running) :
    m.iresumeThread tid = m :=
  if_pos running

/-- A thread that can run after none of its priority could may be more urgent than the current
one. -/
def Urgent (m : Machine Thread Queue) (tid : Thread) : Prop :=
  m.threadQhead (m.ctx tid).priority = none ∧
    (m.ctx m.currentThread).priority < (m.ctx tid).priority

instance (m : Machine Thread Queue) (tid : Thread) : Decidable (m.Urgent tid) :=
  inferInstanceAs (Decidable (_ ∧ _))

theorem iresumeThread_idle (idle : (m.ctx tid).status ≠ .running) :
    m.iresumeThread tid =
      (if (m.start tid).Urgent tid then { m.start tid with needReschedule := true }
        else m.start tid).placeAtEnd tid ((m.start tid).ctx tid).priority :=
  if_neg idle

end Machine

section

variable [DecidableEq Thread] [DecidableEq Queue] [Fintype Thread]

theorem Refines.start (refines : Refines m s) (tid : Thread) :
    Refines (m.start tid) (s.start tid) := by
  have released : Refines (m.release tid) (s.release tid) := by
    rw [Machine.release, Scheduler.release, refines.context]
    apply Refines.unblock
    split
    · exact refines.removeFromAlarmQ
    · exact refines
  rw [Machine.start, Scheduler.start, released.context]
  exact released.setCtx tid _

namespace Tracks

theorem iresumeThread (tracks : Tracks m s) (tid : Thread) :
    Tracks (m.iresumeThread tid) (s.iresumeThread tid) := by
  refine ⟨?_, tracks.queued.iresumeThread tid⟩
  by_cases running : (s.ctx tid).status = .running
  · rw [Scheduler.iresumeThread_running running, Machine.iresumeThread_running]
    · exact tracks.refines
    · rw [tracks.refines.context]
      exact running
  · have started := tracks.refines.start tid
    rw [Scheduler.iresumeThread_idle running, Machine.iresumeThread_idle]
    · rw [started.context]
      apply Refines.placeAtEnd
      · split
        · exact started.pending true
        · exact started
      · have free : Links.Free (s.release tid).lists tid := by
          apply free_of_queued (tracks.queued.release tid)
          · rw [Scheduler.ctx_release]
            exact running
          · rw [Scheduler.ctx_release]
        exact free
    · rw [tracks.refines.context]
      exact running

/-- A thread that goes on does not overtake the current one unnoticed. -/
theorem iresumeThread_runs (tracks : Tracks m s) (runs : Runs m s) (tid : Thread) :
    Runs (m.iresumeThread tid) (s.iresumeThread tid) := by
  by_cases running : (s.ctx tid).status = .running
  · rw [Scheduler.iresumeThread_running running, Machine.iresumeThread_running]
    · exact runs
    · rw [tracks.refines.context]
      exact running
  · have other : m.currentThread ≠ tid := by
      rintro same
      exact running (same ▸ tracks.current_running runs)
    have started := tracks.refines.start tid
    have awake : (m.ctx tid).status ≠ .running := by
      rw [tracks.refines.context]
      exact running
    have current : (m.start tid).currentThread = m.currentThread := Machine.release_current.1
    have kept : (m.start tid).needReschedule = m.needReschedule := Machine.release_current.2
    have priority : ((s.start tid).ctx tid).priority = (s.ctx tid).priority := by
      rw [Scheduler.ctx_start]
    have here : (s.start tid).ctx m.currentThread = s.ctx m.currentThread :=
      Scheduler.ctx_start_of_ne other
    have urgent : (m.start tid).Urgent tid ↔ s.ready (s.ctx tid).priority = [] ∧
        (s.ctx m.currentThread).priority < (s.ctx tid).priority := by
      rw [Machine.Urgent, started.context, started.threadQhead_eq, current, started.context, here,
        Scheduler.ready_start, priority, List.head?_eq_none_iff]
    rw [Machine.iresumeThread_idle awake, Scheduler.iresumeThread_idle running, priority,
      Scheduler.ready_start]
    have ready : ((s.start tid).setReady (s.ctx tid).priority
        (s.ready (s.ctx tid).priority ++ [tid])).ready =
          Function.update s.ready (s.ctx tid).priority (s.ready (s.ctx tid).priority ++ [tid]) := by
      show Function.update (s.start tid).ready _ _ = _
      rw [Scheduler.ready_start]
    apply runs.append ready here
    · show (ite _ _ _ : Machine Thread Queue).currentThread = _
      split <;> exact current
    · intro settled
      have notUrgent : ¬(m.start tid).Urgent tid := by
        intro yes
        rw [if_pos yes] at settled
        exact Bool.false_ne_true settled.symm
      rw [if_neg notUrgent] at settled
      refine ⟨kept.symm.trans settled, fun empty above => ?_⟩
      exact notUrgent (urgent.mpr ⟨empty, above⟩)

end Tracks

end

end LaTTe.Threads.RunQueue
