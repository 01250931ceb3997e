import LaTTe.Threads.RunQueueSteps

namespace LaTTe.Threads.RunQueue

open LaTTe.Data
open LaTTe.Threads.Alarm (Context Scheduler Time)

/-! The current thread is the first of the highest queue. -/

section

variable {Thread : Type} {head : Nat → Option Thread} {tid : Thread} {priority bound : Nat}

theorem highestBelow_some (found : highestBelow head bound = some tid) :
    ∃ priority, minPriority ≤ priority ∧ priority ≤ bound ∧ head priority = some tid ∧
      ∀ above, priority < above → above ≤ bound → head above = none := by
  induction bound with
  | zero => cases found
  | succ bound ih =>
      rw [highestBelow] at found
      cases top : head (bound + 1) with
      | some other =>
          rw [top] at found
          refine ⟨bound + 1, Nat.succ_le_succ (Nat.zero_le bound), Nat.le_refl _,
            top.trans found, ?_⟩
          intro above higher within
          exact absurd within (Nat.not_le_of_lt higher)
      | none =>
          rw [top] at found
          obtain ⟨priority, low, high, here, empty⟩ := ih found
          refine ⟨priority, low, Nat.le_succ_of_le high, here, ?_⟩
          intro above higher within
          rcases Nat.lt_or_eq_of_le within with below | equal
          · exact empty above higher (Nat.le_of_lt_succ below)
          · rw [equal]
            exact top

theorem highestBelow_eq (low : minPriority ≤ priority) (high : priority ≤ bound)
    (here : head priority = some tid)
    (empty : ∀ above, priority < above → above ≤ bound → head above = none) :
    highestBelow head bound = some tid := by
  induction bound with
  | zero => exact absurd (low.trans high) (by decide)
  | succ bound ih =>
      rw [highestBelow]
      rcases Nat.lt_or_eq_of_le high with below | equal
      · rw [empty (bound + 1) below (Nat.le_refl _)]
        apply ih (Nat.le_of_lt_succ below)
        exact fun above higher within => empty above higher (Nat.le_succ_of_le within)
      · rw [← equal, here]

theorem highestBelow_none (empty : ∀ priority, head priority = none) :
    highestBelow head bound = none := by
  induction bound with
  | zero => rfl
  | succ bound ih => rw [highestBelow, empty, ih]

theorem highestBelow_ne_none (low : minPriority ≤ priority) (high : priority ≤ bound)
    (here : head priority ≠ none) : highestBelow head bound ≠ none := by
  induction bound with
  | zero => exact absurd (low.trans high) (by decide)
  | succ bound ih =>
      rw [highestBelow]
      cases top : head (bound + 1) with
      | some other => exact Option.some_ne_none other
      | none =>
          apply ih
          rcases Nat.lt_or_eq_of_le high with below | equal
          · exact Nat.le_of_lt_succ below
          · rw [equal] at here
            exact absurd top here

end

variable {Thread Queue : Type} {m m' : Machine Thread Queue} {s s' : Scheduler Thread Queue}
  {tid : Thread}

namespace Machine

/-- No change is pending, and the current thread is the first of the highest queue, unless
nothing can run. -/
def Dispatched (m : Machine Thread Queue) : Prop :=
  m.needReschedule = false ∧ (m.highest = none ∨ m.highest = some m.currentThread)

theorem reschedule_dispatched (m : Machine Thread Queue) : m.reschedule.Dispatched := by
  rw [reschedule]
  cases highest : m.highest with
  | none => exact ⟨rfl, .inl highest⟩
  | some tid => exact ⟨rfl, .inr highest⟩

theorem intsRestore_pending (pending : m.needReschedule = true) : m.intsRestore.Dispatched := by
  rw [intsRestore, if_pos pending]
  exact reschedule_dispatched m

theorem Dispatched.intsRestore (dispatched : m.Dispatched) : m.intsRestore.Dispatched := by
  rw [Machine.intsRestore, dispatched.1]
  exact dispatched

end Machine

theorem Refines.reschedule (refines : Refines m s) : Refines m.reschedule s := by
  rw [Machine.reschedule]
  cases m.highest with
  | none => exact refines.pending false
  | some tid => exact refines.dispatch tid false

theorem Refines.intsRestore (refines : Refines m s) : Refines m.intsRestore s := by
  rw [Machine.intsRestore]
  split
  · exact refines.reschedule
  · exact refines

namespace Tracks

theorem runs (tracks : Tracks m s) (highest : m.highest = some m.currentThread) : Runs m s := by
  rw [tracks.refines.highest_eq] at highest
  obtain ⟨priority, _, _, here, empty⟩ := highestBelow_some highest
  have current := (tracks.queued.ready_iff.mp (List.mem_of_mem_head? here)).2
  constructor
  · rw [current]
    exact here
  · intro _ above higher
    rw [current] at higher
    by_cases within : above ≤ maxPriority
    · exact List.head?_eq_none_iff.mp (empty above higher within)
    · apply List.eq_nil_iff_forall_not_mem.mpr
      intro t member
      have same := (tracks.queued.ready_iff.mp member).2
      exact within (same ▸ (tracks.queued.range t).2)

theorem highest_of_runs (tracks : Tracks m s) (runs : Runs m s)
    (settled : m.needReschedule = false) : m.highest = some m.currentThread := by
  rw [tracks.refines.highest_eq]
  obtain ⟨low, high⟩ := tracks.queued.range m.currentThread
  apply highestBelow_eq low high runs.head
  intro above higher _
  rw [runs.above settled above higher, List.head?_nil]

theorem restore (tracks : Tracks m s) (runs : Runs m s) : m.intsRestore.Dispatched := by
  cases pending : m.needReschedule with
  | true => exact Machine.intsRestore_pending pending
  | false =>
      rw [Machine.intsRestore, pending]
      exact ⟨pending, .inr (tracks.highest_of_runs runs pending)⟩

theorem busy (tracks : Tracks m s) (running : (s.ctx tid).status = .running) :
    m.highest ≠ none := by
  rw [tracks.refines.highest_eq]
  obtain ⟨low, high⟩ := tracks.queued.range tid
  apply highestBelow_ne_none low high
  have member := tracks.queued.ready_iff.mpr ⟨running, rfl⟩
  rw [ne_eq, List.head?_eq_none_iff]
  exact List.ne_nil_of_mem member

end Tracks

theorem Runs.erase [DecidableEq Thread] (runs : Runs m s) {priority : Nat}
    (other : m.currentThread ≠ tid)
    (ready : s'.ready = Function.update s.ready priority ((s.ready priority).erase tid))
    (context : s'.ctx m.currentThread = s.ctx m.currentThread)
    (current : m'.currentThread = m.currentThread)
    (pending : m'.needReschedule = m.needReschedule) : Runs m' s' := by
  constructor
  · rw [current, context, ready]
    by_cases same : (s.ctx m.currentThread).priority = priority
    · obtain ⟨rest, split⟩ := List.head?_eq_some_iff.mp runs.head
      rw [same, Function.update_self, ← same, split,
        List.erase_cons_tail (by simpa using other)]
      rfl
    · rw [Function.update_of_ne same]
      exact runs.head
  · intro settled above higher
    rw [current, context] at higher
    have empty := runs.above (pending ▸ settled) above higher
    rw [ready]
    by_cases same : above = priority
    · rw [same, Function.update_self, ← same, empty]
      rfl
    · rw [Function.update_of_ne same]
      exact empty

theorem Runs.congr (runs : Runs m s) (ready : s'.ready = s.ready)
    (context : (s'.ctx m.currentThread).priority = (s.ctx m.currentThread).priority)
    (current : m'.currentThread = m.currentThread)
    (pending : m'.needReschedule = m.needReschedule) : Runs m' s' where
  head := by
    rw [current, context, ready]
    exact runs.head
  above := by
    rw [current, context, ready, pending]
    exact runs.above

theorem Runs.setCtx [DecidableEq Thread] (runs : Runs m s) {ctx : Context Queue}
    (priority : ctx.priority = (s.ctx tid).priority) :
    Runs (m.setCtx tid ctx) (s.setCtx tid ctx) := by
  have ready : (s.setCtx tid ctx).ready = s.ready := rfl
  refine runs.congr ready ?_ rfl rfl
  by_cases same : m.currentThread = tid
  · rw [same, Scheduler.setCtx_self, priority]
  · rw [Scheduler.setCtx_of_ne same]

structure Going (current : Thread) (busy : Prop) (m : Machine Thread Queue)
    (s : Scheduler Thread Queue) : Prop where
  tracks : Tracks m s
  current : m.currentThread = current
  runs : busy → Runs m s

structure Settles (busy : Prop) (m : Machine Thread Queue) (s : Scheduler Thread Queue) : Prop where
  tracks : Tracks m s
  dispatched : busy → m.intsRestore.Dispatched

variable {current : Thread} {busy : Prop}

theorem Going.settles (going : Going current busy m s) : Settles busy m s :=
  ⟨going.tracks, fun yes => going.tracks.restore (going.runs yes)⟩

namespace Going

variable [DecidableEq Thread]

theorem setCtx (going : Going current busy m s) {ctx : Context Queue}
    (status : ctx.status = (s.ctx tid).status) (priority : ctx.priority = (s.ctx tid).priority)
    (blockqueue : ctx.blockqueue = (s.ctx tid).blockqueue) :
    Going current busy (m.setCtx tid ctx) (s.setCtx tid ctx) where
  tracks := ⟨going.tracks.refines.setCtx tid ctx,
    going.tracks.queued.setCtx status priority blockqueue⟩
  current := going.current
  runs yes := (going.runs yes).setCtx priority

theorem popAlarm (going : Going current busy m s) {rest : List Thread}
    (list : s.alarmList = tid :: rest) :
    Going current busy
      { m with alarms := m.alarms.set (.root ()) (m.alarms.next tid) }
      { s with alarmList := rest } := by
  obtain ⟨⟨refines, queued⟩, here, runs⟩ := going
  have split : s.alarmList = [] ++ tid :: rest := list
  have holds := refines.alarms.unlink () split
  rw [Refines.update_unit] at holds
  exact ⟨⟨⟨refines.ctx, refines.queues, holds, refines.tails⟩,
    queued.congr rfl rfl fun _ => ⟨rfl, rfl, rfl⟩⟩, here, fun yes => (runs yes).congr rfl rfl rfl rfl⟩

variable [DecidableEq Queue]

theorem alarmList_iresumeThread (absent : tid ∉ s.alarmList) :
    (s.iresumeThread tid).alarmList = s.alarmList := by
  by_cases running : (s.ctx tid).status = .running
  · rw [Scheduler.iresumeThread_running running]
  · have woken := Scheduler.iresumeThread_spec running fun member => absurd member absent
    rw [woken.list, List.erase_of_not_mem absent]

variable [Fintype Thread]

theorem iresumeThread (going : Going current busy m s) (tid : Thread) :
    Going current busy (m.iresumeThread tid) (s.iresumeThread tid) where
  tracks := going.tracks.iresumeThread tid
  current := by
    rw [← going.current]
    by_cases running : (m.ctx tid).status = .running
    · rw [Machine.iresumeThread_running running]
    · rw [Machine.iresumeThread_idle running]
      show (ite _ _ _ : Machine Thread Queue).currentThread = _
      split <;> exact Machine.release_current.1
  runs yes := going.tracks.iresumeThread_runs (going.runs yes) tid

theorem resumeThread (going : Going current busy m s) (tid : Thread) :
    Going current busy (m.resumeThread tid) (s.resumeThread tid) := by
  have second : ∀ {m : Machine Thread Queue} {s : Scheduler Thread Queue},
      Going current busy m s →
        Going current busy (if (m.ctx tid).killed then m.iresumeThread tid else m)
          (if (s.ctx tid).killed then s.iresumeThread tid else s) := by
    intro m s going
    rw [going.tracks.refines.context]
    split
    · exact going.iresumeThread tid
    · exact going
  rw [Machine.resumeThread, Scheduler.resumeThread, going.tracks.refines.context]
  apply second
  split
  · have told : Going current busy
        (m.setCtx tid { s.ctx tid with userSuspend := false })
        (s.setCtx tid { s.ctx tid with userSuspend := false }) := going.setCtx rfl rfl rfl
    exact told.iresumeThread tid
  · exact going

theorem stopThread (going : Going current busy m s) (tid : Thread) :
    Going current busy (m.stopThread tid) (s.stopThread tid) := by
  have killed : Going current busy (m.setCtx tid { s.ctx tid with killed := true })
      (s.setCtx tid { s.ctx tid with killed := true }) := going.setCtx rfl rfl rfl
  rw [Machine.stopThread, Scheduler.stopThread, going.tracks.refines.context]
  exact killed.resumeThread tid

theorem wake (going : Going current busy m s) (threads : List Thread) :
    Going current busy (threads.foldl Machine.iresumeThread m)
      (threads.foldl Scheduler.iresumeThread s) := by
  induction threads generalizing m s with
  | nil => exact going
  | cons tid rest ih => exact ih (going.iresumeThread tid)

theorem wakeDue (going : Going current busy m s) (now : Time) {fuel : Nat}
    (enough : s.alarmList.length ≤ fuel) :
    Going current busy (Machine.wakeDue now fuel m)
      (Scheduler.wakeDue now s.alarmList.length s) := by
  induction fuel generalizing m s with
  | zero =>
      rw [Nat.le_zero.mp enough]
      exact going
  | succ fuel ih =>
      have first := going.tracks.refines.alarms.first_eq ()
      rw [Machine.wakeDue, first]
      cases list : s.alarmList with
      | nil => exact going
      | cons tid rest =>
          have distinct := list ▸ going.tracks.refines.alarms.distinct ()
          have absent : tid ∉ rest := (List.nodup_cons.mp distinct).1
          rw [List.length_cons, Scheduler.wakeDue, list, List.head?_cons]
          dsimp only
          rw [going.tracks.refines.context]
          split
          · have kept := alarmList_iresumeThread (s := { s with alarmList := rest }) absent
            have later := ih ((going.popAlarm list).iresumeThread tid) (by
              rw [kept]
              rw [list] at enough
              exact Nat.le_of_succ_le_succ enough)
            rw [kept] at later
            exact later
          · exact going

theorem alarmException (going : Going current busy m s) (now : Time) (blocked : Bool) :
    Going current busy (m.alarmException now blocked) (s.alarmException now blocked) := by
  cases blocked with
  | true => exact going
  | false => exact going.wakeDue now (going.tracks.refines.alarms.distinct ()).length_le_card

end Going

end LaTTe.Threads.RunQueue
