import LaTTe.Threads.AlarmList
import LaTTe.Threads.RunQueue

namespace LaTTe.Threads.Alarm.Scheduler

open LaTTe.Threads.RunQueue (minPriority maxPriority)

/-! The queues of the scheduler over its operations. -/

variable {Thread Queue : Type}

structure Queued (s : Scheduler Thread Queue) : Prop where
  ready_iff : ∀ {t priority}, t ∈ s.ready priority ↔
    (s.ctx t).status = .running ∧ (s.ctx t).priority = priority
  waiting_iff : ∀ {t queue}, t ∈ s.waiting queue ↔ (s.ctx t).blockqueue = some queue
  unblocked : ∀ {t}, (s.ctx t).status ≠ .suspended → (s.ctx t).blockqueue = none
  ready_nodup : ∀ priority, (s.ready priority).Nodup
  waiting_nodup : ∀ queue, (s.waiting queue).Nodup
  range : ∀ t, minPriority ≤ (s.ctx t).priority ∧ (s.ctx t).priority ≤ maxPriority

variable {s next : Scheduler Thread Queue} {tid t : Thread} {ctx : Context Queue}

theorem Queued.congr (queued : s.Queued) (ready : next.ready = s.ready)
    (waiting : next.waiting = s.waiting)
    (same : ∀ t, (next.ctx t).status = (s.ctx t).status ∧
      (next.ctx t).priority = (s.ctx t).priority ∧
      (next.ctx t).blockqueue = (s.ctx t).blockqueue) : next.Queued where
  ready_iff := by
    intro t priority
    rw [ready, (same t).1, (same t).2.1]
    exact queued.ready_iff
  waiting_iff := by
    intro t queue
    rw [waiting, (same t).2.2]
    exact queued.waiting_iff
  unblocked := by
    intro t
    rw [(same t).1, (same t).2.2]
    exact queued.unblocked
  ready_nodup := ready ▸ queued.ready_nodup
  waiting_nodup := waiting ▸ queued.waiting_nodup
  range := by
    intro t
    rw [(same t).2.1]
    exact queued.range t

/-- A thread goes somewhere else, and the others stay where they are. -/
theorem Queued.move (queued : s.Queued) (tid : Thread)
    (others : ∀ t, t ≠ tid → next.ctx t = s.ctx t ∧
      (∀ priority, t ∈ next.ready priority ↔ t ∈ s.ready priority) ∧
      ∀ queue, t ∈ next.waiting queue ↔ t ∈ s.waiting queue)
    (ready : ∀ priority, tid ∈ next.ready priority ↔
      (next.ctx tid).status = .running ∧ (next.ctx tid).priority = priority)
    (waiting : ∀ queue, tid ∈ next.waiting queue ↔ (next.ctx tid).blockqueue = some queue)
    (unblocked : (next.ctx tid).status ≠ .suspended → (next.ctx tid).blockqueue = none)
    (ready_nodup : ∀ priority, (next.ready priority).Nodup)
    (waiting_nodup : ∀ queue, (next.waiting queue).Nodup)
    (range : minPriority ≤ (next.ctx tid).priority ∧ (next.ctx tid).priority ≤ maxPriority) :
    next.Queued where
  ready_iff := by
    intro t priority
    by_cases here : t = tid
    · exact here ▸ ready priority
    · rw [(others t here).1, (others t here).2.1]
      exact queued.ready_iff
  waiting_iff := by
    intro t queue
    by_cases here : t = tid
    · exact here ▸ waiting queue
    · rw [(others t here).1, (others t here).2.2]
      exact queued.waiting_iff
  unblocked := by
    intro t
    by_cases here : t = tid
    · exact here ▸ unblocked
    · rw [(others t here).1]
      exact queued.unblocked
  ready_nodup := ready_nodup
  waiting_nodup := waiting_nodup
  range := by
    intro t
    by_cases here : t = tid
    · exact here ▸ range
    · rw [(others t here).1]
      exact queued.range t

section

variable {Root : Type} [DecidableEq Root] {lists : Root → List Thread} {root : Root}
  {threads : List Thread}

theorem nodup_update (root : Root) (distinct : ∀ root, (lists root).Nodup)
    (nodup : threads.Nodup) (root' : Root) : (Function.update lists root threads root').Nodup := by
  by_cases same : root' = root
  · rw [same, Function.update_self]
    exact nodup
  · rw [Function.update_of_ne same]
    exact distinct root'

theorem mem_update (same : t ∈ threads ↔ t ∈ lists root) (root' : Root) :
    t ∈ Function.update lists root threads root' ↔ t ∈ lists root' := by
  by_cases here : root' = root
  · rw [here, Function.update_self]
    exact same
  · rw [Function.update_of_ne here]

theorem not_mem_update (absent : tid ∉ threads)
    (elsewhere : ∀ root', tid ∈ lists root' → root' = root) (root' : Root) :
    tid ∉ Function.update lists root threads root' := by
  by_cases here : root' = root
  · rw [here, Function.update_self]
    exact absent
  · rw [Function.update_of_ne here]
    exact fun member => here (elsewhere root' member)

theorem mem_update_new (present : tid ∈ threads) (elsewhere : ∀ root', tid ∉ lists root')
    (root' : Root) : tid ∈ Function.update lists root threads root' ↔ root = root' := by
  by_cases here : root' = root
  · rw [here, Function.update_self]
    exact iff_of_true present rfl
  · rw [Function.update_of_ne here]
    exact iff_of_false (elsewhere root') fun equal => here equal.symm

theorem nodup_append_singleton (nodup : threads.Nodup) (absent : tid ∉ threads) :
    (threads ++ [tid]).Nodup := by
  apply List.Nodup.append nodup (List.nodup_singleton tid)
  intro t member last
  rw [List.mem_singleton.mp last] at member
  exact absent member

theorem mem_append_singleton (other : t ≠ tid) : t ∈ threads ++ [tid] ↔ t ∈ threads := by
  rw [List.mem_append, List.mem_singleton]
  exact or_iff_left other

end

@[simp] theorem ready_setReady {priority : Nat} {threads : List Thread} :
    (s.setReady priority threads).ready priority = threads :=
  Function.update_self _ _ _

theorem ready_setReady_of_ne {priority priority' : Nat} {threads : List Thread}
    (other : priority' ≠ priority) :
    (s.setReady priority threads).ready priority' = s.ready priority' :=
  Function.update_of_ne other _ _

theorem setReady_self {priority : Nat} : s.setReady priority (s.ready priority) = s := by
  rw [setReady, Function.update_eq_self]

theorem Queued.only_ready (queued : s.Queued) (priority : Nat) (member : tid ∈ s.ready priority) :
    priority = (s.ctx tid).priority :=
  (queued.ready_iff.mp member).2.symm

variable [DecidableEq Thread]

@[simp] theorem setCtx_self : (s.setCtx tid ctx).ctx tid = ctx :=
  Function.update_self _ _ _

theorem setCtx_of_ne (other : t ≠ tid) : (s.setCtx tid ctx).ctx t = s.ctx t :=
  Function.update_of_ne other _ _

theorem setPriorityThread_running {prio : Nat} (running : (s.ctx tid).status = .running) :
    s.setPriorityThread tid prio =
      ((s.setReady (s.ctx tid).priority ((s.ready (s.ctx tid).priority).erase tid)).setReady prio
        (Function.update s.ready (s.ctx tid).priority
          ((s.ready (s.ctx tid).priority).erase tid) prio ++ [tid])).setCtx tid
            { s.ctx tid with priority := prio } := by
  rw [setPriorityThread, if_pos running]
  rfl

def block [DecidableEq Queue] (s : Scheduler Thread Queue) (tid : Thread) :
    Option Queue → Scheduler Thread Queue
  | none => s
  | some queue =>
      (s.setWaiting queue (tid :: s.waiting queue)).setCtx tid
        { s.ctx tid with blockqueue := some queue }

theorem block_kept [DecidableEq Queue] (s : Scheduler Thread Queue) (tid : Thread)
    (queue : Option Queue) : (s.block tid queue).ready = s.ready ∧
      (s.block tid queue).alarmList = s.alarmList ∧
        ∀ t, t ≠ tid → (s.block tid queue).ctx t = s.ctx t := by
  cases queue with
  | none => exact ⟨rfl, rfl, fun _ _ => rfl⟩
  | some queue => exact ⟨rfl, rfl, fun _ other => setCtx_of_ne other⟩

theorem suspendOnQThread_awake [DecidableEq Queue] {queue : Option Queue} {timeout now : Time}
    (awake : (s.ctx tid).status ≠ .suspended)
    (new : ctx = { s.ctx tid with status := .suspended }) :
    s.suspendOnQThread tid queue timeout now =
      if tid ∈ s.ready ctx.priority then
        let s := ((s.setCtx tid ctx).setReady ctx.priority ((s.ready ctx.priority).erase tid)).block
          tid queue
        if 0 < timeout.toInt then s.addToAlarmQ tid timeout now else s
      else s.setCtx tid ctx := by
  subst new
  rw [suspendOnQThread, if_neg awake]
  cases queue <;> rfl

namespace Queued

theorem setCtx (queued : s.Queued) (status : ctx.status = (s.ctx tid).status)
    (priority : ctx.priority = (s.ctx tid).priority)
    (blockqueue : ctx.blockqueue = (s.ctx tid).blockqueue) : (s.setCtx tid ctx).Queued := by
  have same : ∀ t, ((s.setCtx tid ctx).ctx t).status = (s.ctx t).status ∧
      ((s.setCtx tid ctx).ctx t).priority = (s.ctx t).priority ∧
      ((s.setCtx tid ctx).ctx t).blockqueue = (s.ctx t).blockqueue := by
    intro t
    by_cases here : t = tid
    · subst here
      rw [setCtx_self]
      exact ⟨status, priority, blockqueue⟩
    · rw [setCtx_of_ne here]
      exact ⟨rfl, rfl, rfl⟩
  have ready : (s.setCtx tid ctx).ready = s.ready := rfl
  exact queued.congr ready rfl same

theorem leave (queued : s.Queued) (free : (s.ctx tid).blockqueue = none)
    (idle : ctx.status ≠ .running) (priority : ctx.priority = (s.ctx tid).priority)
    (unblocked : ctx.blockqueue = none) :
    ((s.setCtx tid ctx).setReady (s.ctx tid).priority
      ((s.ready (s.ctx tid).priority).erase tid)).Queued := by
  have erased : tid ∉ (s.ready (s.ctx tid).priority).erase tid :=
    (queued.ready_nodup _).not_mem_erase
  have context : ((s.setCtx tid ctx).setReady (s.ctx tid).priority
      ((s.ready (s.ctx tid).priority).erase tid)).ctx tid = ctx := setCtx_self
  apply queued.move tid
  · intro t other
    exact ⟨setCtx_of_ne other, mem_update (List.mem_erase_of_ne other), fun _ => Iff.rfl⟩
  · intro priority'
    rw [context]
    exact iff_of_false (not_mem_update erased queued.only_ready priority')
      fun both => idle both.1
  · intro queue
    rw [context, unblocked, ← free]
    exact queued.waiting_iff
  · rw [context]
    exact fun _ => unblocked
  · exact nodup_update _ queued.ready_nodup ((queued.ready_nodup _).erase tid)
  · exact queued.waiting_nodup
  · rw [context, priority]
    exact queued.range tid

theorem start (queued : s.Queued) (idle : (s.ctx tid).status ≠ .running)
    (free : (s.ctx tid).blockqueue = none) (running : ctx.status = .running)
    (unblocked : ctx.blockqueue = none)
    (range : minPriority ≤ ctx.priority ∧ ctx.priority ≤ maxPriority) :
    ((s.setCtx tid ctx).setReady ctx.priority (s.ready ctx.priority ++ [tid])).Queued := by
  have absent : ∀ priority, tid ∉ s.ready priority := by
    intro priority member
    exact idle (queued.ready_iff.mp member).1
  have context : ((s.setCtx tid ctx).setReady ctx.priority
      (s.ready ctx.priority ++ [tid])).ctx tid = ctx := setCtx_self
  apply queued.move tid
  · intro t other
    exact ⟨setCtx_of_ne other, mem_update (mem_append_singleton other), fun _ => Iff.rfl⟩
  · intro priority'
    rw [context, and_iff_right running]
    exact mem_update_new (List.mem_append_right _ List.mem_cons_self) absent priority'
  · intro queue
    rw [context, unblocked, ← free]
    exact queued.waiting_iff
  · rw [context]
    exact fun _ => unblocked
  · exact nodup_update _ queued.ready_nodup (nodup_append_singleton (queued.ready_nodup _) (absent _))
  · exact queued.waiting_nodup
  · rw [context]
    exact range

theorem requeue (queued : s.Queued) {prio : Nat} (running : (s.ctx tid).status = .running)
    (range : minPriority ≤ prio ∧ prio ≤ maxPriority) :
    (s.setPriorityThread tid prio).Queued := by
  have erased : tid ∉ (s.ready (s.ctx tid).priority).erase tid :=
    (queued.ready_nodup _).not_mem_erase
  have absent := not_mem_update erased queued.only_ready
  have distinct := nodup_update (s.ctx tid).priority queued.ready_nodup
    ((queued.ready_nodup (s.ctx tid).priority).erase tid)
  rw [setPriorityThread_running running]
  apply queued.move tid
  · intro t other
    refine ⟨setCtx_of_ne other, fun priority' => ?_, fun _ => Iff.rfl⟩
    exact (mem_update (mem_append_singleton other) priority').trans
      (mem_update (List.mem_erase_of_ne other) priority')
  · intro priority'
    rw [setCtx_self, and_iff_right running]
    exact mem_update_new (List.mem_append_right _ List.mem_cons_self) absent priority'
  · intro queue
    rw [setCtx_self]
    exact queued.waiting_iff
  · rw [setCtx_self]
    exact queued.unblocked
  · exact nodup_update _ distinct (nodup_append_singleton (distinct _) (absent _))
  · exact queued.waiting_nodup
  · rw [setCtx_self]
    exact range

theorem setPriorityThread (queued : s.Queued) {prio : Nat}
    (range : minPriority ≤ prio ∧ prio ≤ maxPriority) :
    (s.setPriorityThread tid prio).Queued := by
  by_cases running : (s.ctx tid).status = .running
  · exact queued.requeue running range
  · rw [Scheduler.setPriorityThread, if_neg running]
    apply queued.move tid
    · intro t other
      exact ⟨setCtx_of_ne other, fun _ => Iff.rfl, fun _ => Iff.rfl⟩
    · intro priority
      rw [setCtx_self]
      refine iff_of_false (fun member => running (queued.ready_iff.mp member).1) ?_
      exact fun both => running both.1
    · intro queue
      rw [setCtx_self]
      exact queued.waiting_iff
    · rw [setCtx_self]
      exact queued.unblocked
    · exact queued.ready_nodup
    · exact queued.waiting_nodup
    · rw [setCtx_self]
      exact range

theorem yieldThread (queued : s.Queued) (running : (s.ctx tid).status = .running) :
    (s.yieldThread tid).Queued := by
  have erased : tid ∉ (s.ready (s.ctx tid).priority).erase tid :=
    (queued.ready_nodup _).not_mem_erase
  have here := queued.ready_iff.mpr ⟨running, rfl⟩
  have same : ∀ t, t ∈ (s.ready (s.ctx tid).priority).erase tid ++ [tid] ↔
      t ∈ s.ready (s.ctx tid).priority := by
    intro t
    by_cases self : t = tid
    · rw [self]
      exact iff_of_true (List.mem_append_right _ List.mem_cons_self) here
    · rw [mem_append_singleton self, List.mem_erase_of_ne self]
  constructor
  · intro t priority
    exact (mem_update (same t) priority).trans queued.ready_iff
  · exact queued.waiting_iff
  · exact queued.unblocked
  · exact nodup_update _ queued.ready_nodup
      (nodup_append_singleton ((queued.ready_nodup _).erase tid) erased)
  · exact queued.waiting_nodup
  · exact queued.range

theorem suspendThread (queued : s.Queued) (tid : Thread) : (s.suspendThread tid).Queued := by
  rw [Scheduler.suspendThread]
  split
  · exact queued
  · rename_i awake
    have free := queued.unblocked awake
    dsimp only
    rw [setCtx_self]
    apply queued.leave free
    · intro running
      cases running
    · rfl
    · exact free

theorem killThread (queued : s.Queued) (running : (s.ctx tid).status = .running) :
    (s.killThread tid).Queued := by
  have notDead : (s.ctx tid).status ≠ .dead := by
    rw [running]
    decide
  have free : (s.ctx tid).blockqueue = none := by
    apply queued.unblocked
    rw [running]
    decide
  simp only [Scheduler.killThread, if_neg notDead, if_pos running]
  apply queued.leave free
  · intro running
    cases running
  · rfl
  · exact free

theorem addToAlarmQ (queued : s.Queued) (tid : Thread) (timeout now : Time) :
    (s.addToAlarmQ tid timeout now).Queued := by
  have kept : (s.setCtx tid { s.ctx tid with
      alarm := true, time := timeout + now, due := timeout.toNat + now.toNat }).Queued :=
    queued.setCtx rfl rfl rfl
  exact kept.congr rfl rfl fun _ => ⟨rfl, rfl, rfl⟩

theorem removeFromAlarmQ (queued : s.Queued) (tid : Thread) : (s.removeFromAlarmQ tid).Queued := by
  have kept : (s.setCtx tid { s.ctx tid with alarm := false }).Queued :=
    queued.setCtx rfl rfl rfl
  exact kept.congr rfl rfl fun _ => ⟨rfl, rfl, rfl⟩

variable [DecidableEq Queue]

theorem unblock (queued : s.Queued) (tid : Thread) : (s.unblock tid).Queued := by
  rw [Scheduler.unblock]
  cases blocked : (s.ctx tid).blockqueue with
  | none => exact queued
  | some queue =>
      have erased : tid ∉ (s.waiting queue).erase tid :=
        (queued.waiting_nodup _).not_mem_erase
      have only : ∀ queue', tid ∈ s.waiting queue' → queue' = queue := by
        intro queue' member
        exact Option.some.inj ((queued.waiting_iff.mp member).symm.trans blocked)
      apply queued.move tid
      · intro t other
        exact ⟨setCtx_of_ne other, fun _ => Iff.rfl, mem_update (List.mem_erase_of_ne other)⟩
      · intro priority
        rw [setCtx_self]
        exact queued.ready_iff
      · intro queue'
        rw [setCtx_self]
        exact iff_of_false (not_mem_update erased only queue') (Option.some_ne_none queue').symm
      · rw [setCtx_self]
        exact fun _ => rfl
      · exact queued.ready_nodup
      · exact nodup_update _ queued.waiting_nodup ((queued.waiting_nodup _).erase tid)
      · rw [setCtx_self]
        exact queued.range tid

theorem blockIn (queued : s.Queued) (suspended : (s.ctx tid).status = .suspended)
    (free : (s.ctx tid).blockqueue = none) (queue : Queue) :
    ((s.setWaiting queue (tid :: s.waiting queue)).setCtx tid
      { s.ctx tid with blockqueue := some queue }).Queued := by
  have absent : ∀ queue', tid ∉ s.waiting queue' := by
    intro queue' member
    rw [queued.waiting_iff, free] at member
    cases member
  apply queued.move tid
  · intro t other
    refine ⟨setCtx_of_ne other, fun _ => Iff.rfl, mem_update ?_⟩
    rw [List.mem_cons]
    exact or_iff_right other
  · intro priority
    rw [setCtx_self]
    exact queued.ready_iff
  · intro queue'
    rw [setCtx_self]
    refine (mem_update_new List.mem_cons_self absent queue').trans ?_
    exact Option.some_inj.symm
  · rw [setCtx_self]
    exact fun awake => absurd suspended awake
  · exact queued.ready_nodup
  · exact nodup_update _ queued.waiting_nodup
      (List.nodup_cons.mpr ⟨absent queue, queued.waiting_nodup queue⟩)
  · rw [setCtx_self]
    exact queued.range tid

theorem block (queued : s.Queued) (suspended : (s.ctx tid).status = .suspended)
    (free : (s.ctx tid).blockqueue = none) (queue : Option Queue) : (s.block tid queue).Queued := by
  cases queue with
  | none => exact queued
  | some queue => exact queued.blockIn suspended free queue

theorem suspendOnQThread (queued : s.Queued) (tid : Thread) (queue : Option Queue)
    (timeout now : Time) : (s.suspendOnQThread tid queue timeout now).Queued := by
  have timed : ∀ s : Scheduler Thread Queue, s.Queued →
      (if 0 < timeout.toInt then s.addToAlarmQ tid timeout now else s).Queued := by
    intro s queued
    split
    · exact queued.addToAlarmQ tid timeout now
    · exact queued
  by_cases awake : (s.ctx tid).status ≠ .suspended
  · have free := queued.unblocked awake
    obtain ⟨ctx, new⟩ : ∃ ctx : Context Queue, ctx = { s.ctx tid with status := .suspended } :=
      ⟨_, rfl⟩
    have suspended : ctx.status = .suspended := by rw [new]
    have unblocked : ctx.blockqueue = none := by rw [new, free]
    have priority : ctx.priority = (s.ctx tid).priority := by rw [new]
    have idle : ctx.status ≠ .running := by
      rw [suspended]
      decide
    have left := queued.leave free idle priority unblocked
    rw [suspendOnQThread_awake awake new]
    rw [← priority] at left
    split
    · apply timed
      apply left.block
      · exact (congrArg Context.status setCtx_self).trans suspended
      · exact (congrArg Context.blockqueue setCtx_self).trans unblocked
    · rename_i absent
      have unchanged : (s.setCtx tid ctx).setReady ctx.priority (s.ready ctx.priority) =
          s.setCtx tid ctx := setReady_self
      rw [List.erase_of_not_mem absent, unchanged] at left
      exact left
  · rw [Scheduler.suspendOnQThread, if_pos (not_not.mp awake)]
    exact queued

end Queued

end LaTTe.Threads.Alarm.Scheduler
