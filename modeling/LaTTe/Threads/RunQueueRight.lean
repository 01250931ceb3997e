import LaTTe.Threads.Queued

namespace LaTTe.Threads.RunQueue

open LaTTe.Data
open LaTTe.Threads.Alarm (Context Scheduler Time)

/-! The linked queues have the lists of the scheduler. -/

section

variable {Root Thread : Type} {links : Links Root Thread} {lists : Root → List Thread}
  {tid : Thread} {front back : List Thread} (root : Root)

theorem not_mem_front (holds : links.Holds lists) (split : lists root = front ++ tid :: back) :
    tid ∉ front := by
  intro member
  have distinct := split ▸ holds.distinct root
  exact (List.nodup_append.mp distinct).2.2 tid member tid List.mem_cons_self rfl

variable [DecidableEq Thread]

theorem erase_eq (holds : links.Holds lists) (split : lists root = front ++ tid :: back) :
    (lists root).erase tid = front ++ back := by
  rw [split, List.erase_append_right _ (not_mem_front root holds split), List.erase_cons_head]

variable [DecidableEq Root] [Fintype Thread]

theorem unlinked_of_split (holds : links.Holds lists)
    (split : lists root = front ++ tid :: back) :
    unlinked links root tid = some ((Place.root root).behind front,
      links.set ((Place.root root).behind front) (links.next tid)) := by
  have leads : links.Leads (.root root) (front ++ tid :: back) := split ▸ holds.leads root
  have distinct : (front ++ tid :: back).Nodup := split ▸ holds.distinct root
  have walked : links.walk (fun t => decide (t = tid)) (Fintype.card Thread) (.root root) =
      (Place.root root).behind front := by
    apply Links.walk_eq leads
    · intro t member
      apply decide_eq_false
      rintro rfl
      exact not_mem_front root holds split member
    · intro t head
      exact decide_eq_true (Option.some.inj head).symm
    · exact (distinct.of_append_left).length_le_card
  have points : links.get ((Place.root root).behind front) = some tid := leads.behind.get_eq
  rw [unlinked]
  simp only [walked, points]

theorem unlinked_of_not_mem (holds : links.Holds lists) (absent : tid ∉ lists root) :
    unlinked links root tid = none := by
  have leads : links.Leads (.root root) (lists root ++ []) := by
    rw [List.append_nil]
    exact holds.leads root
  have walked : links.walk (fun t => decide (t = tid)) (Fintype.card Thread) (.root root) =
      (Place.root root).behind (lists root) := by
    apply Links.walk_eq leads
    · intro t member
      apply decide_eq_false
      rintro rfl
      exact absent member
    · intro t head
      cases head
    · exact (holds.distinct root).length_le_card
  have ends : links.get ((Place.root root).behind (lists root)) = none := leads.behind.get_eq
  rw [unlinked]
  simp only [walked, ends]

end

variable {Thread Queue : Type}

/-- The links of the machine hold the lists of the scheduler, and each queue that is not empty
has a pointer to its last thread. -/
structure Refines (m : Machine Thread Queue) (s : Scheduler Thread Queue) : Prop where
  ctx : m.ctx = s.ctx
  queues : m.queues.Holds s.lists
  alarms : m.alarms.Holds fun _ => s.alarmList
  tails : ∀ priority, s.ready priority ≠ [] →
    m.threadQtail priority = (s.ready priority).getLast?

variable {m : Machine Thread Queue} {s : Scheduler Thread Queue} {tid : Thread}

theorem lists_setReady {priority : Nat} {threads : List Thread} [DecidableEq Queue] :
    (s.setReady priority threads).lists = Function.update s.lists (.ready priority) threads := by
  funext root
  cases root with
  | ready priority' =>
      by_cases same : priority' = priority
      · rw [same, Function.update_self]
        exact Function.update_self _ _ _
      · rw [Function.update_of_ne fun equal => same (Root.ready.inj equal)]
        exact Function.update_of_ne same _ _
  | waiting queue => exact (Function.update_of_ne (fun equal => by cases equal) _ _).symm

theorem lists_setWaiting {queue : Queue} {threads : List Thread} [DecidableEq Queue] :
    (s.setWaiting queue threads).lists = Function.update s.lists (.waiting queue) threads := by
  funext root
  cases root with
  | ready priority => exact (Function.update_of_ne (fun equal => by cases equal) _ _).symm
  | waiting queue' =>
      by_cases same : queue' = queue
      · rw [same, Function.update_self]
        exact Function.update_self _ _ _
      · rw [Function.update_of_ne fun equal => same (Root.waiting.inj equal)]
        exact Function.update_of_ne same _ _

namespace Refines

theorem threadQhead_eq (refines : Refines m s) (priority : Nat) :
    m.threadQhead priority = (s.ready priority).head? :=
  refines.queues.first_eq (.ready priority)

theorem highest_eq (refines : Refines m s) : m.highest = s.highest := by
  unfold Machine.highest Scheduler.highest
  congr 1
  funext priority
  exact refines.threadQhead_eq priority

theorem tails_update (refines : Refines m s) {priority : Nat} {threads : List Thread}
    {tails : Nat → Option Thread}
    (here : threads ≠ [] → tails priority = threads.getLast?)
    (elsewhere : ∀ priority', priority' ≠ priority →
      tails priority' = m.threadQtail priority') (priority' : Nat)
    (nonempty : (s.setReady priority threads).ready priority' ≠ []) :
    tails priority' = ((s.setReady priority threads).ready priority').getLast? := by
  by_cases same : priority' = priority
  · subst same
    rw [Scheduler.ready_setReady] at nonempty ⊢
    exact here nonempty
  · rw [Scheduler.ready_setReady_of_ne same] at nonempty ⊢
    rw [elsewhere priority' same]
    exact refines.tails priority' nonempty

theorem alarms_free {threads : List Thread} (absent : tid ∉ threads) :
    Links.Free (fun _ : Unit => threads) tid :=
  fun _ => absent

theorem update_unit (threads : List Thread) (old : Unit → List Thread) :
    Function.update old () threads = fun _ => threads :=
  funext fun _ => Function.update_self _ _ _

theorem context (refines : Refines m s) (tid : Thread) : m.ctx tid = s.ctx tid :=
  congrFun refines.ctx tid

theorem tails_erase (refines : Refines m s) {priority : Nat} {front back : List Thread}
    (split : s.ready priority = front ++ tid :: back) (notLast : back ≠ []) :
    m.threadQtail priority = (front ++ back).getLast? := by
  rw [refines.tails priority (by simp [split]), split,
    List.getLast?_append_of_ne_nil _ (List.cons_ne_nil tid back),
    List.getLast?_append_of_ne_nil _ notLast, List.getLast?_cons_of_ne_nil notLast]

variable [DecidableEq Thread]

theorem setCtx (refines : Refines m s) (tid : Thread) (ctx : Context Queue) :
    Refines (m.setCtx tid ctx) (s.setCtx tid ctx) where
  ctx := by
    show Function.update m.ctx tid ctx = Function.update s.ctx tid ctx
    rw [refines.ctx]
  queues := refines.queues
  alarms := refines.alarms
  tails := refines.tails

theorem placeAtEnd [DecidableEq Queue] (refines : Refines m s) (free : Links.Free s.lists tid)
    (priority : Nat) :
    Refines (m.placeAtEnd tid priority)
      (s.setReady priority (s.ready priority ++ [tid])) where
  ctx := refines.ctx
  queues := by
    have added := refines.queues.append (.ready priority) free
    rw [lists_setReady, Machine.placeAtEnd, refines.threadQhead_eq]
    have tails := refines.tails priority
    rcases List.eq_nil_or_concat' (s.ready priority) with empty | ⟨front, last, split⟩
    · have empty' : s.lists (.ready priority) = [] := empty
      rw [empty'] at added
      rw [empty]
      exact added
    · have split' : s.lists (.ready priority) = front ++ [last] := split
      rw [split', Place.behind_append_singleton] at added
      rw [tails (by simp [split]), split, List.getLast?_concat, List.head?_append]
      cases front with
      | nil => exact added
      | cons first rest => exact added
  alarms := refines.alarms
  tails := by
    apply refines.tails_update
    · intro _
      rw [List.getLast?_concat]
      exact Function.update_self _ _ _
    · exact fun _ other => Function.update_of_ne other _ _

theorem block [DecidableEq Queue] (refines : Refines m s) (free : Links.Free s.lists tid) (queue : Option Queue) :
    Refines (m.block tid queue) (s.block tid queue) := by
  cases queue with
  | none => exact refines
  | some queue =>
      rw [Machine.block, Scheduler.block, ← refines.context]
      apply Refines.setCtx
      refine ⟨refines.ctx, ?_, refines.alarms, refines.tails⟩
      rw [lists_setWaiting]
      have split : s.lists (.waiting queue) = [] ++ s.waiting queue := rfl
      exact refines.queues.link (.waiting queue) split free

section

variable [Fintype Thread]

theorem insertAlarm (refines : Refines m s) (absent : tid ∉ s.alarmList) {tidp : Place Unit Thread}
    (place : tidp = m.alarms.walk
      (fun t => decide ((m.ctx tid).time.toInt < (m.ctx t).time.toInt)) (Fintype.card Thread)
      (.root ())) :
    Refines
      { m with alarms := (m.alarms.set (.link tid) (m.alarms.get tidp)).set tidp (some tid) }
      { s with alarmList := insertByKey (fun t => (s.ctx t).time.toInt) tid s.alarmList } where
  ctx := refines.ctx
  queues := refines.queues
  alarms := by
    let later := fun t => decide ((s.ctx tid).time.toInt < (s.ctx t).time.toInt)
    have split : s.alarmList = s.alarmList.takeWhile (fun t => !later t) ++
        s.alarmList.dropWhile fun t => !later t :=
      List.takeWhile_append_dropWhile.symm
    have leads := refines.alarms.leads ()
    rw [split] at leads
    have walked : tidp =
        (Place.root ()).behind (s.alarmList.takeWhile fun t => !later t) := by
      rw [place, refines.ctx]
      apply Links.walk_eq leads
      · intro t member
        have passed := List.mem_takeWhile_imp member
        simpa [later] using passed
      · intro t head
        have stops := List.head?_dropWhile_not (fun t => !later t) s.alarmList
        rw [head] at stops
        simpa [later] using stops
      · exact ((refines.alarms.distinct ()).sublist (List.takeWhile_sublist _)).length_le_card
    have holds := refines.alarms.link () split (alarms_free absent)
    rw [update_unit, ← walked] at holds
    rw [insertByKey_eq]
    exact holds
  tails := refines.tails

theorem addToAlarmQ (refines : Refines m s) (absent : tid ∉ s.alarmList) (timeout now : Time) :
    Refines (m.addToAlarmQ tid timeout now) (s.addToAlarmQ tid timeout now) := by
  rw [Machine.addToAlarmQ, Scheduler.addToAlarmQ, refines.context]
  exact (refines.setCtx tid _).insertAlarm absent rfl

theorem removeFromAlarmQ (refines : Refines m s) :
    Refines (m.removeFromAlarmQ tid) (s.removeFromAlarmQ tid) := by
  have silent := refines.setCtx tid { s.ctx tid with alarm := false }
  rw [Machine.removeFromAlarmQ, Scheduler.removeFromAlarmQ, refines.context]
  by_cases member : tid ∈ s.alarmList
  · obtain ⟨front, back, split⟩ := List.append_of_mem member
    have holds := refines.alarms.unlink () split
    have absent : tid ∉ s.alarmList.erase tid := (refines.alarms.distinct ()).not_mem_erase
    rw [update_unit, ← erase_eq () refines.alarms split] at holds
    have found : unlinked (m.setCtx tid { s.ctx tid with alarm := false }).alarms () tid = _ :=
      unlinked_of_split () refines.alarms split
    simp only [found]
    exact ⟨silent.ctx, silent.queues, holds.setFree (alarms_free absent) none, silent.tails⟩
  · have missed : unlinked (m.setCtx tid { s.ctx tid with alarm := false }).alarms () tid = none :=
      unlinked_of_not_mem () refines.alarms member
    have same : (s.setCtx tid { s.ctx tid with alarm := false }).alarmList.erase tid = s.alarmList :=
      List.erase_of_not_mem member
    simp only [missed, same]
    exact silent

variable [DecidableEq Queue]

theorem unlink_eq (m : Machine Thread Queue) (root : Root Queue) (tid : Thread) :
    m.unlink root tid = { m with queues := (m.unlink root tid).queues } := by
  rw [Machine.unlink]
  cases unlinked m.queues root tid with
  | none => rfl
  | some found => rfl

theorem unlink_holds (refines : Refines m s) (root : Root Queue) :
    (m.unlink root tid).queues.Holds
      (Function.update s.lists root ((s.lists root).erase tid)) := by
  rw [Machine.unlink]
  by_cases member : tid ∈ s.lists root
  · obtain ⟨front, back, split⟩ := List.append_of_mem member
    rw [unlinked_of_split root refines.queues split, erase_eq root refines.queues split]
    exact refines.queues.unlink root split
  · rw [unlinked_of_not_mem root refines.queues member, List.erase_of_not_mem member,
      Function.update_eq_self]
    exact refines.queues

theorem unlink_waiting (refines : Refines m s) (queue : Queue) :
    Refines (m.unlink (.waiting queue) tid)
      (s.setWaiting queue ((s.waiting queue).erase tid)) := by
  rw [unlink_eq]
  refine ⟨refines.ctx, ?_, refines.alarms, refines.tails⟩
  rw [lists_setWaiting]
  exact refines.unlink_holds (.waiting queue)

theorem unblock (refines : Refines m s) : Refines (m.unblock tid) (s.unblock tid) := by
  rw [Machine.unblock, Scheduler.unblock, refines.context]
  cases (s.ctx tid).blockqueue with
  | none => exact refines
  | some queue => exact (refines.unlink_waiting queue).setCtx tid _

theorem unlink_ready (refines : Refines m s) {priority : Nat}
    (tails : (s.ready priority).getLast? = some tid → (s.ready priority).head? = some tid) :
    Refines (m.unlink (.ready priority) tid)
      (s.setReady priority ((s.ready priority).erase tid)) := by
  rw [unlink_eq]
  refine ⟨refines.ctx, ?_, refines.alarms, ?_⟩
  · rw [lists_setReady]
    exact refines.unlink_holds (.ready priority)
  · apply refines.tails_update
    · intro nonempty
      by_cases member : tid ∈ s.ready priority
      · obtain ⟨front, back, split⟩ := List.append_of_mem member
        have erased : (s.ready priority).erase tid = front ++ back :=
          erase_eq (Root.ready priority) refines.queues split
        rw [erased] at nonempty ⊢
        apply refines.tails_erase split
        rintro rfl
        have absent := not_mem_front (Root.ready priority) refines.queues split
        rw [split, List.getLast?_concat] at tails
        cases front with
        | nil => exact nonempty rfl
        | cons first rest =>
            have same := Option.some.inj (tails rfl)
            exact absent (same ▸ List.mem_cons_self)
      · rw [List.erase_of_not_mem member] at nonempty ⊢
        exact refines.tails priority nonempty
    · exact fun _ _ => rfl

theorem leaveReady (refines : Refines m s) (priority : Nat) (member : tid ∈ s.ready priority) :
    ∃ m', m.leaveReady tid priority = some m' ∧
      Refines m' (s.setReady priority ((s.ready priority).erase tid)) ∧
      m'.currentThread = m.currentThread ∧ m'.needReschedule = m.needReschedule := by
  obtain ⟨front, back, split⟩ := List.append_of_mem member
  have holds := refines.queues.unlink (.ready priority) split
  have erased : (s.ready priority).erase tid = front ++ back :=
    erase_eq (Root.ready priority) refines.queues split
  have leads : m.queues.Leads _ (s.ready priority) := refines.queues.leads (.ready priority)
  rw [split] at leads
  have next : m.queues.next tid = back.head? := leads.behind.2.get_eq
  rw [Machine.leaveReady, unlinked_of_split (Root.ready priority) refines.queues split]
  refine ⟨_, rfl, ⟨refines.ctx, ?_, refines.alarms, ?_⟩, rfl, rfl⟩
  · rw [lists_setReady, erased]
    exact holds
  · apply refines.tails_update
    · intro nonempty
      rw [erased]
      dsimp only
      rw [Links.get_set_self, next]
      cases back with
      | nil =>
          rw [List.head?_nil, if_pos rfl, List.append_nil, Function.update_self,
            Place.owner_behind]
      | cons second rest =>
          rw [List.head?_cons, if_neg (Option.some_ne_none second)]
          exact refines.tails_erase split (List.cons_ne_nil second rest)
    · intro priority' other
      dsimp only
      split
      · exact Function.update_of_ne other _ _
      · rfl

theorem leaveReady_none (refines : Refines m s) (priority : Nat)
    (absent : tid ∉ s.ready priority) : m.leaveReady tid priority = none := by
  rw [Machine.leaveReady, unlinked_of_not_mem (Root.ready priority) refines.queues absent]

end

end Refines

end LaTTe.Threads.RunQueue
