import LaTTe.Threads.Dispatch

namespace LaTTe.Threads.RunQueue

open LaTTe.Data
open LaTTe.Threads (Status)
open LaTTe.Threads.Alarm (Context Scheduler Time)

/-! The operations that take the current thread off its queue. -/

variable {Thread Queue : Type} {m m' : Machine Thread Queue} {s s' : Scheduler Thread Queue}
  {tid current : Thread} {busy : Prop}

namespace Settles

theorem reschedule (tracks : Tracks m s) : Settles busy m.reschedule s :=
  ⟨⟨tracks.refines.reschedule, tracks.queued⟩, fun _ => m.reschedule_dispatched.intsRestore⟩

theorem pending (tracks : Tracks m s) (pending : m.needReschedule = true) : Settles busy m s :=
  ⟨tracks, fun _ => Machine.intsRestore_pending pending⟩

end Settles

section

variable [DecidableEq Thread]

theorem suspendFor_kept (s : Scheduler Thread Queue) (tid : Thread)
    (timeout now : Time) :
    (if 0 < timeout.toInt then s.addToAlarmQ tid timeout now else s).ready = s.ready ∧
      ∀ t, t ≠ tid →
        (if 0 < timeout.toInt then s.addToAlarmQ tid timeout now else s).ctx t = s.ctx t := by
  split
  · exact ⟨rfl, fun _ other => Scheduler.setCtx_of_ne other⟩
  · exact ⟨rfl, fun _ _ => rfl⟩

theorem Refines.suspendFor [Fintype Thread] (refines : Refines m s) (absent : tid ∉ s.alarmList)
    (timeout now : Time) :
    Refines (if 0 < timeout.toInt then m.addToAlarmQ tid timeout now else m)
      (if 0 < timeout.toInt then s.addToAlarmQ tid timeout now else s) := by
  split
  · exact refines.addToAlarmQ absent timeout now
  · exact refines

theorem free_erase (queued : s.Queued) (running : (s.ctx tid).status = .running) :
    Links.Free (s.setReady (s.ctx tid).priority
      ((s.ready (s.ctx tid).priority).erase tid)).lists tid := by
  intro root
  cases root with
  | ready priority =>
      apply Scheduler.not_mem_update _ queued.only_ready priority
      exact (queued.ready_nodup _).not_mem_erase
  | waiting queue =>
      intro blocked
      have unblocked := queued.unblocked (running.trans_ne (by decide))
      exact Option.some_ne_none queue ((queued.waiting_iff.mp blocked).symm.trans unblocked)

variable [DecidableEq Queue]

theorem Refines.cutLink (refines : Refines m s) (free : Links.Free s.lists tid)
    (link : Option Thread) :
    Refines { m with queues := m.queues.set (.link tid) link } s :=
  ⟨refines.ctx, refines.queues.setFree free link, refines.alarms, refines.tails⟩

theorem Refines.rotate (refines : Refines m s) {priority : Nat} {front : List Thread} {last : Thread}
    (split : s.ready priority = tid :: (front ++ [last]))
    (free : Links.Free (s.setReady priority (front ++ [last])).lists tid) :
    Refines
      { m with
        queues := ((m.queues.set (.root (.ready priority)) (m.queues.next tid)).set (.link last)
          (some tid)).set (.link tid) none
        threadQtail := Function.update m.threadQtail priority (some tid) }
      (s.setReady priority (front ++ [last] ++ [tid])) where
  ctx := refines.ctx
  queues := by
    have shape : s.lists (.ready priority) = [] ++ tid :: (front ++ [last]) := split
    have out := refines.queues.unlink (.ready priority) shape
    rw [List.nil_append, Place.behind_nil] at out
    rw [lists_setReady] at free
    have back := out.append (.ready priority) free
    rw [Function.update_self, Place.behind_append_singleton, Function.update_idem] at back
    rw [lists_setReady]
    exact back
  alarms := refines.alarms
  tails := by
    apply refines.tails_update
    · intro _
      rw [List.getLast?_concat]
      exact Function.update_self _ _ _
    · exact fun _ other => Function.update_of_ne other _ _

theorem Going.yieldThread (going : Going tid busy m s) (yes : busy) :
    Settles busy m.yieldThread (s.yieldThread tid) := by
  have running := going.tracks.current_running (going.runs yes)
  have head := (going.runs yes).head
  rw [going.current] at running head
  have queued := going.tracks.queued.yieldThread running
  have refines := going.tracks.refines
  obtain ⟨rest, split⟩ := List.head?_eq_some_iff.mp head
  have distinct := going.tracks.queued.ready_nodup (s.ctx tid).priority
  rw [split] at distinct
  have absent := (List.nodup_cons.mp distinct).1
  rw [Scheduler.yieldThread, split, List.erase_cons_head] at queued ⊢
  rw [Machine.yieldThread, going.current, refines.context]
  dsimp only
  rw [refines.threadQhead_eq, refines.tails _ (by simp [split]), split, List.head?_cons]
  rcases List.eq_nil_or_concat' rest with rfl | ⟨front, last, rfl⟩
  · have unchanged : s.setReady (s.ctx tid).priority ([] ++ [tid]) = s := by
      rw [List.nil_append, ← split]
      exact Scheduler.setReady_self
    rw [List.getLast?_singleton, if_neg fun different => different rfl, unchanged]
    exact going.settles
  · rw [← List.cons_append, List.getLast?_concat]
    have other : tid ≠ last := fun same => absent (same ▸ List.mem_append_right _ List.mem_cons_self)
    rw [if_pos fun same => other (Option.some.inj same)]
    have free := free_erase going.tracks.queued running
    rw [split, List.erase_cons_head] at free
    have moved := refines.rotate split free
    exact Settles.pending ⟨⟨moved.ctx, moved.queues, moved.alarms, moved.tails⟩, queued⟩ rfl

variable [Fintype Thread]

theorem Machine.suspendFor_current (m : Machine Thread Queue) (tid : Thread) (queue : Option Queue) (timeout now : Time) :
    (if 0 < timeout.toInt then (m.block tid queue).addToAlarmQ tid timeout now
      else m.block tid queue).currentThread = m.currentThread ∧
    (if 0 < timeout.toInt then (m.block tid queue).addToAlarmQ tid timeout now
      else m.block tid queue).needReschedule = m.needReschedule := by
  cases queue <;> split <;> exact ⟨rfl, rfl⟩

namespace Going

theorem suspendThread (going : Going current busy m s) (tid : Thread)
    (tails : (s.ready (s.ctx tid).priority).getLast? = some tid →
      (s.ready (s.ctx tid).priority).head? = some tid) :
    Settles busy (m.suspendThread tid) (s.suspendThread tid) := by
  have queued := going.tracks.queued.suspendThread tid
  rw [Machine.suspendThread, going.tracks.refines.context]
  rw [Scheduler.suspendThread] at queued ⊢
  by_cases asleep : (s.ctx tid).status = .suspended
  · rw [if_pos asleep, if_pos asleep]
    exact going.settles
  rw [if_neg asleep] at queued
  rw [if_neg asleep, if_neg asleep]
  dsimp only at queued ⊢
  obtain ⟨ctx, new⟩ : ∃ ctx : Context Queue,
      ctx = { s.ctx tid with status := .suspended, userSuspend := true } := ⟨_, rfl⟩
  have priority : ctx.priority = (s.ctx tid).priority := by rw [new]
  rw [← new] at queued ⊢
  rw [← priority] at tails
  have told := going.tracks.refines.setCtx tid ctx
  have left := told.unlink_ready tails
  rw [Scheduler.setCtx_self] at queued ⊢
  rw [told.context, Scheduler.setCtx_self]
  have stays : busy → tid ≠ m.currentThread → ∀ m' : Machine Thread Queue,
      m'.currentThread = m.currentThread → m'.needReschedule = m.needReschedule →
        Runs m' ((s.setCtx tid ctx).setReady ctx.priority ((s.ready ctx.priority).erase tid)) := by
    intro yes other m' here kept
    exact (going.runs yes).erase (Ne.symm other) rfl (Scheduler.setCtx_of_ne (Ne.symm other))
      here kept
  by_cases member : tid ∈ s.ready ctx.priority
  · obtain ⟨front, back, split⟩ := List.append_of_mem member
    have found : unlinked (m.setCtx tid ctx).queues (Root.ready ctx.priority) tid = some _ :=
      unlinked_of_split (Root.ready ctx.priority) told.queues split
    have free : Links.Free ((s.setCtx tid ctx).setReady ctx.priority
        ((s.ready ctx.priority).erase tid)).lists tid := by
      apply free_of_queued queued
      · show ((s.setCtx tid ctx).ctx tid).status ≠ _
        rw [Scheduler.setCtx_self, new]
        show Status.suspended ≠ .running
        decide
      · show ((s.setCtx tid ctx).ctx tid).blockqueue = _
        rw [Scheduler.setCtx_self, new]
        exact going.tracks.queued.unblocked asleep
    rw [Machine.unlink, found] at left
    rw [found]
    dsimp only
    have cut : Tracks _ _ := ⟨left.cutLink free none, queued⟩
    by_cases self : tid = (m.setCtx tid ctx).currentThread
    · rw [if_pos self]
      exact Settles.reschedule cut
    · rw [if_neg self]
      exact Going.settles ⟨cut, going.current, fun yes => stays yes self _ rfl rfl⟩
  · rw [Machine.unlink, unlinked_of_not_mem (Root.ready ctx.priority) told.queues member] at left
    rw [unlinked_of_not_mem (Root.ready ctx.priority) told.queues member]
    refine Going.settles ⟨⟨left, queued⟩, going.current, fun yes => stays yes ?_ _ rfl rfl⟩
    rintro rfl
    rw [priority] at member
    exact member (List.mem_of_mem_head? (going.runs yes).head)

theorem suspendOnQThread (going : Going current busy m s) (tid : Thread)
    (silent : (s.ctx tid).status ≠ .suspended → tid ∉ s.alarmList) (queue : Option Queue)
    (timeout now : Time) :
    Settles busy (m.suspendOnQThread tid queue timeout now)
      (s.suspendOnQThread tid queue timeout now) := by
  have queued := going.tracks.queued.suspendOnQThread tid queue timeout now
  rw [Machine.suspendOnQThread, going.tracks.refines.context]
  by_cases asleep : (s.ctx tid).status = .suspended
  · rw [Scheduler.suspendOnQThread, if_pos asleep, if_pos asleep]
    exact going.settles
  obtain ⟨ctx, new⟩ : ∃ ctx : Context Queue, ctx = { s.ctx tid with status := .suspended } :=
    ⟨_, rfl⟩
  have suspended : ctx.status = .suspended := by rw [new]
  have unblocked : ctx.blockqueue = none := by
    rw [new]
    exact going.tracks.queued.unblocked asleep
  have priority : ctx.priority = (s.ctx tid).priority := by rw [new]
  have told := going.tracks.refines.setCtx tid ctx
  rw [Scheduler.suspendOnQThread_awake asleep new] at queued ⊢
  rw [if_neg asleep]
  dsimp only
  rw [← new, told.context, Scheduler.setCtx_self]
  by_cases member : tid ∈ s.ready ctx.priority
  · rw [if_pos member] at queued ⊢
    obtain ⟨m', found, left, here, kept⟩ := told.leaveReady ctx.priority member
    rw [found]
    dsimp only at queued ⊢
    have idle : ctx.status ≠ .running := by
      rw [suspended]
      decide
    have leaves := going.tracks.queued.leave (going.tracks.queued.unblocked asleep) idle priority
      unblocked
    rw [← priority] at leaves
    obtain ⟨ready, alarms, others⟩ := Scheduler.block_kept ((s.setCtx tid ctx).setReady ctx.priority
      ((s.ready ctx.priority).erase tid)) tid queue
    have free : Links.Free ((s.setCtx tid ctx).setReady ctx.priority
        ((s.ready ctx.priority).erase tid)).lists tid := by
      apply free_of_queued leaves
      · exact (congrArg Context.status Scheduler.setCtx_self).trans_ne idle
      · exact (congrArg Context.blockqueue Scheduler.setCtx_self).trans unblocked
    have timed := (left.block free queue).suspendFor (alarms ▸ silent asleep) timeout now
    have still := Machine.suspendFor_current m' tid queue timeout now
    by_cases self : tid = m.currentThread
    · rw [if_pos (self.trans (here.symm.trans still.1.symm))]
      exact Settles.reschedule ⟨timed, queued⟩
    · rw [if_neg fun same => self (same.trans (still.1.trans here))]
      refine Going.settles ⟨⟨timed, queued⟩, still.1.trans (here.trans going.current), fun yes => ?_⟩
      obtain ⟨ready', others'⟩ := suspendFor_kept (((s.setCtx tid ctx).setReady
        ctx.priority ((s.ready ctx.priority).erase tid)).block tid queue) tid timeout now
      apply (going.runs yes).erase (Ne.symm self)
      · exact ready'.trans ready
      · rw [others' _ (Ne.symm self), others _ (Ne.symm self)]
        exact Scheduler.setCtx_of_ne (Ne.symm self)
      · exact still.1.trans here
      · exact still.2.trans kept
  · rw [told.leaveReady_none ctx.priority member]
    rw [if_neg member] at queued ⊢
    have unchanged : Going current busy (m.setCtx tid ctx) (s.setCtx tid ctx) :=
      ⟨⟨told, queued⟩, going.current, fun yes => (going.runs yes).setCtx priority⟩
    exact unchanged.settles

theorem killThread (going : Going tid busy m s) (yes : busy) (waiters : List Thread) :
    Settles busy (m.killThread waiters)
      ((waiters.foldl Scheduler.iresumeThread s).killThread tid) := by
  have woken := going.wake waiters
  rw [Machine.killThread]
  generalize waiters.foldl Machine.iresumeThread m = m' at woken ⊢
  generalize waiters.foldl Scheduler.iresumeThread s = s' at woken ⊢
  have runs := woken.runs yes
  have running := woken.tracks.current_running runs
  have head := runs.head
  rw [woken.current] at running head
  have queued := woken.tracks.queued.killThread running
  have notDead : (s'.ctx tid).status ≠ .dead := by
    rw [running]
    decide
  have left := woken.tracks.refines.unlink_ready fun _ => head
  simp only [Scheduler.killThread, if_neg notDead, if_pos running] at queued ⊢
  rw [woken.current, woken.tracks.refines.context]
  simp only [if_neg notDead, if_pos running]
  rw [left.context]
  exact Settles.pending ⟨(left.setCtx tid _).pending true, queued⟩ rfl

theorem setPriorityThread (going : Going current busy m s) (tid : Thread)
    (alive : (s.ctx tid).status ≠ .dead) {prio : Nat}
    (range : minPriority ≤ prio ∧ prio ≤ maxPriority) :
    Settles busy (m.setPriorityThread tid prio) (s.setPriorityThread tid prio) := by
  have queued : (s.setPriorityThread tid prio).Queued :=
    going.tracks.queued.setPriorityThread range
  rw [Machine.setPriorityThread, going.tracks.refines.context]
  cases status : (s.ctx tid).status with
  | dead => exact absurd status alive
  | suspended =>
      have notRunning : (s.ctx tid).status ≠ .running := by
        rw [status]
        decide
      rw [Scheduler.setPriorityThread, if_neg notRunning] at queued ⊢
      rw [if_pos rfl]
      refine Going.settles ⟨⟨going.tracks.refines.setCtx tid _, queued⟩, going.current, fun yes => ?_⟩
      have other : m.currentThread ≠ tid := by
        intro same
        exact notRunning (same ▸ going.tracks.current_running (going.runs yes))
      have ready : (s.setCtx tid { s.ctx tid with priority := prio }).ready = s.ready := rfl
      exact (going.runs yes).congr ready
        (congrArg Context.priority (Scheduler.setCtx_of_ne other)) rfl rfl
  | running =>
      rw [Scheduler.setPriorityThread_running status] at queued ⊢
      have member := going.tracks.queued.ready_iff.mpr ⟨status, rfl⟩
      obtain ⟨m', found, left, here, kept⟩ :=
        going.tracks.refines.leaveReady (s.ctx tid).priority member
      rw [if_neg (by decide), found, Option.getD_some]
      dsimp only
      rw [left.context tid]
      have free := free_erase going.tracks.queued status
      have placed := (left.setCtx tid { s.ctx tid with priority := prio }).placeAtEnd free prio
      split
      · exact Settles.pending ⟨placed.pending true, queued⟩ rfl
      · rename_i below
        obtain ⟨notSelf, notBelow⟩ := not_or.mp below
        have other : m.currentThread ≠ tid := fun same => notSelf (here.trans same).symm
        have context : (m'.setCtx tid { s.ctx tid with priority := prio }).ctx m'.currentThread =
            s.ctx m.currentThread := by
          rw [here]
          exact (Function.update_of_ne other _ _).trans (left.context m.currentThread)
        refine Going.settles ⟨⟨placed, queued⟩, here.trans going.current, fun yes => ?_⟩
        have mid : Runs m' (s.setReady (s.ctx tid).priority
            ((s.ready (s.ctx tid).priority).erase tid)) :=
          (going.runs yes).erase other rfl rfl here kept
        refine mid.append rfl ?_ rfl fun settled => ⟨settled, fun _ above => notBelow ?_⟩
        · rw [here]
          exact Scheduler.setCtx_of_ne other
        · rw [here] at above
          exact (congrArg Context.priority context).trans_lt above

end Going

end

end LaTTe.Threads.RunQueue
