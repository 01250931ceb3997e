import LaTTe.Data.Transition
import LaTTe.Threads.Alarm

namespace LaTTe.Threads.Alarm

open LaTTe.Data

/-! The list of alarms over the runs of the scheduler. -/

theorem toNat_lt_of_nonneg {time : Time} (nonneg : 0 ≤ time.toInt) : time.toNat < 2 ^ 63 := by
  rw [BitVec.toInt_eq_toNat_cond] at nonneg
  split at nonneg <;> omega

namespace Scheduler

variable {Thread Queue : Type}

def Fits (s : Scheduler Thread Queue) (t : Thread) : Prop :=
  (s.ctx t).due < 2 ^ 63

structure Alarms (s : Scheduler Thread Queue) : Prop where
  sorted : s.alarmList.Pairwise fun t u => (s.ctx t).time.toInt ≤ (s.ctx u).time.toInt
  nodup : s.alarmList.Nodup
  mem_iff : ∀ t, t ∈ s.alarmList ↔ (s.ctx t).alarm = true
  suspended : ∀ t, (s.ctx t).alarm = true → (s.ctx t).status = .suspended
  time : ∀ t, (s.ctx t).alarm = true → (s.ctx t).time = BitVec.ofNat 64 (s.ctx t).due ∧
    (s.ctx t).due < 2 ^ 64

structure Rings (s : Scheduler Thread Queue) (now : Time) (next : Scheduler Thread Queue) :
    Prop where
  alarms : next.Alarms
  due : ∀ t, if (s.ctx t).alarm = true ∧ (s.ctx t).time.toInt ≤ now.toInt then
      (next.ctx t).status = .running
    else next.ctx t = s.ctx t

variable {s next : Scheduler Thread Queue} {t : Thread}

theorem alarms_of_initial (initial : s.Initial) : s.Alarms := by
  obtain ⟨empty, silent⟩ := initial
  have none : ∀ t, (s.ctx t).alarm ≠ true := fun t flagged =>
    Bool.false_ne_true ((silent t).symm.trans flagged)
  constructor
  · rw [empty]
    exact .nil
  · rw [empty]
    exact .nil
  · intro t
    rw [empty]
    exact iff_of_false List.not_mem_nil (none t)
  · exact fun t flagged => absurd flagged (none t)
  · exact fun t flagged => absurd flagged (none t)

namespace Alarms

theorem congr (alarms : s.Alarms) (list : next.alarmList = s.alarmList)
    (flags : ∀ t, (next.ctx t).alarm = (s.ctx t).alarm)
    (times : ∀ t, (next.ctx t).time = (s.ctx t).time ∧ (next.ctx t).due = (s.ctx t).due)
    (suspended : ∀ t, (s.ctx t).alarm = true → (next.ctx t).status = .suspended) :
    next.Alarms where
  sorted := by
    rw [list]
    exact alarms.sorted.imp fun le => by rwa [(times _).1, (times _).1]
  nodup := list ▸ alarms.nodup
  mem_iff t := by rw [list, flags, alarms.mem_iff]
  suspended t flagged := suspended t (flags t ▸ flagged)
  time t flagged := by
    rw [(times t).1, (times t).2]
    exact alarms.time t (flags t ▸ flagged)

theorem setReady (alarms : s.Alarms) (priority : Nat) (threads : List Thread) :
    (s.setReady priority threads).Alarms :=
  alarms.congr rfl (fun _ => rfl) (fun _ => ⟨rfl, rfl⟩) alarms.suspended

theorem setWaiting [DecidableEq Queue] (alarms : s.Alarms) (queue : Queue) (threads : List Thread) :
    (s.setWaiting queue threads).Alarms :=
  alarms.congr rfl (fun _ => rfl) (fun _ => ⟨rfl, rfl⟩) alarms.suspended

theorem toInt_time (alarms : s.Alarms) (flagged : (s.ctx t).alarm = true) (fits : s.Fits t) :
    (s.ctx t).time.toInt = (s.ctx t).due := by
  obtain ⟨time, small⟩ := alarms.time t flagged
  unfold Fits at fits
  rw [time, BitVec.toInt_eq_toNat_cond, BitVec.toNat_ofNat, Nat.mod_eq_of_lt small,
    if_pos (by omega)]

theorem toInt_time_neg (alarms : s.Alarms) (flagged : (s.ctx t).alarm = true)
    (wraps : ¬ s.Fits t) : (s.ctx t).time.toInt < 0 := by
  obtain ⟨time, small⟩ := alarms.time t flagged
  unfold Fits at wraps
  rw [time, BitVec.toInt_eq_toNat_cond, BitVec.toNat_ofNat, Nat.mod_eq_of_lt small,
    if_neg (by omega)]
  omega

theorem sorted_due (alarms : s.Alarms) (fits : ∀ t, (s.ctx t).alarm = true → s.Fits t) :
    s.alarmList.Pairwise fun t u => (s.ctx t).due ≤ (s.ctx u).due := by
  refine alarms.sorted.imp_of_mem fun {t u} first second le => ?_
  have flagged := (alarms.mem_iff t).mp first
  have flagged' := (alarms.mem_iff u).mp second
  rw [alarms.toInt_time flagged (fits t flagged), alarms.toInt_time flagged' (fits u flagged')] at le
  exact Int.ofNat_le.mp le

theorem rings_self (alarms : s.Alarms) {now : Time}
    (later : ∀ t ∈ s.alarmList, now.toInt < (s.ctx t).time.toInt) : s.Rings now s := by
  refine ⟨alarms, fun t => ?_⟩
  rw [if_neg]
  rintro ⟨flagged, due⟩
  exact absurd (later t ((alarms.mem_iff t).mpr flagged)) (not_lt.mpr due)

theorem silent (alarms : s.Alarms) (awake : (s.ctx t).status ≠ .suspended) :
    (s.ctx t).alarm = false :=
  eq_false_of_ne_true fun flagged => awake (alarms.suspended t flagged)

theorem setCtx [DecidableEq Thread] (alarms : s.Alarms) (ctx : Context Queue) (alarm : ctx.alarm = (s.ctx t).alarm)
    (time : ctx.time = (s.ctx t).time) (due : ctx.due = (s.ctx t).due)
    (suspended : (s.ctx t).alarm = true → ctx.status = .suspended) : (s.setCtx t ctx).Alarms := by
  have context : ∀ u, u = t ∧ (s.setCtx t ctx).ctx u = ctx ∨ (s.setCtx t ctx).ctx u = s.ctx u := by
    intro u
    by_cases same : u = t
    · exact .inl ⟨same, same ▸ Function.update_self _ _ _⟩
    · exact .inr (Function.update_of_ne same _ _)
  refine alarms.congr rfl (fun u => ?_) (fun u => ?_) fun u flagged => ?_
  · rcases context u with ⟨rfl, here⟩ | there
    · rw [here, alarm]
    · rw [there]
  · rcases context u with ⟨rfl, here⟩ | there
    · rw [here]
      exact ⟨time, due⟩
    · rw [there]
      exact ⟨rfl, rfl⟩
  · rcases context u with ⟨rfl, here⟩ | there
    · rw [here]
      exact suspended flagged
    · rw [there]
      exact alarms.suspended u flagged

theorem suspendThread [DecidableEq Thread] (alarms : s.Alarms) (t : Thread) :
    (s.suspendThread t).Alarms := by
  rw [Scheduler.suspendThread]
  split
  · exact alarms
  · exact (alarms.setCtx { s.ctx t with status := .suspended, userSuspend := true } rfl rfl rfl
      fun _ => rfl).setReady _ _

theorem killThread [DecidableEq Thread] (alarms : s.Alarms)
    (running : (s.ctx t).status = .running) : (s.killThread t).Alarms := by
  have silent := alarms.silent (t := t) (by rw [running]; decide)
  have notDead : (s.ctx t).status ≠ .dead := by
    rw [running]
    decide
  simp only [Scheduler.killThread, if_neg notDead, if_pos running]
  refine (alarms.setReady _ _).setCtx _ rfl rfl rfl fun flagged => ?_
  exact absurd (silent.symm.trans flagged) Bool.false_ne_true

/-- A thread without an alarm gets one, at its place in the list. -/
theorem addToAlarmQ [DecidableEq Thread] (alarms : s.Alarms) (silent : (s.ctx t).alarm = false)
    (suspended : (s.ctx t).status = .suspended) {timeout now : Time} (positive : 0 < timeout.toInt)
    (after : 0 ≤ now.toInt) : (s.addToAlarmQ t timeout now).Alarms := by
  have unlisted : t ∉ s.alarmList := by
    intro member
    exact absurd (silent.symm.trans ((alarms.mem_iff t).mp member)) Bool.false_ne_true
  have here : (s.addToAlarmQ t timeout now).ctx t = { s.ctx t with
      alarm := true, time := timeout + now, due := timeout.toNat + now.toNat } :=
    Function.update_self _ _ _
  have there : ∀ u, u ≠ t → (s.addToAlarmQ t timeout now).ctx u = s.ctx u :=
    fun u other => Function.update_of_ne other _ _
  have perm : (s.addToAlarmQ t timeout now).alarmList.Perm (t :: s.alarmList) :=
    insertByKey_perm _ t s.alarmList
  constructor
  · apply insertByKey_sorted
    refine alarms.sorted.imp_of_mem fun {u v} first second le => ?_
    have apart : ∀ w ∈ s.alarmList, w ≠ t := fun w member same => unlisted (same ▸ member)
    rwa [there u (apart u first), there v (apart v second)]
  · exact perm.nodup_iff.mpr (List.nodup_cons.mpr ⟨unlisted, alarms.nodup⟩)
  · intro u
    rw [perm.mem_iff, List.mem_cons]
    by_cases same : u = t
    · rw [same, here]
      exact iff_of_true (.inl rfl) rfl
    · rw [there u same, ← alarms.mem_iff]
      exact or_iff_right same
  · intro u flagged
    by_cases same : u = t
    · rw [same, here]
      exact suspended
    · rw [there u same] at flagged ⊢
      exact alarms.suspended u flagged
  · intro u flagged
    by_cases same : u = t
    · rw [same, here]
      have small := toNat_lt_of_nonneg positive.le
      have small' := toNat_lt_of_nonneg after
      exact ⟨BitVec.add_def timeout now, by dsimp only; omega⟩
    · rw [there u same] at flagged ⊢
      exact alarms.time u flagged

end Alarms

section

variable [DecidableEq Thread]

structure Woken (s next : Scheduler Thread Queue) (t : Thread) : Prop where
  list : next.alarmList = s.alarmList.erase t
  others : ∀ u, u ≠ t → next.ctx u = s.ctx u
  alarm : (next.ctx t).alarm = false
  status : (next.ctx t).status = .running

theorem Woken.alarms (woken : Woken s next t) (alarms : s.Alarms) : next.Alarms where
  sorted := by
    rw [woken.list]
    refine (alarms.sorted.sublist List.erase_sublist).imp_of_mem fun {u v} first second le => ?_
    rw [woken.others u (List.Nodup.mem_erase_iff alarms.nodup |>.mp first).1,
      woken.others v (List.Nodup.mem_erase_iff alarms.nodup |>.mp second).1]
    exact le
  nodup := woken.list ▸ alarms.nodup.erase t
  mem_iff u := by
    rw [woken.list, alarms.nodup.mem_erase_iff]
    by_cases same : u = t
    · rw [same, woken.alarm]
      exact iff_of_false (fun both => both.1 rfl) Bool.false_ne_true
    · rw [woken.others u same, alarms.mem_iff]
      exact and_iff_right same
  suspended u flagged := by
    have other : u ≠ t := by
      rintro rfl
      rw [woken.alarm] at flagged
      contradiction
    rw [woken.others u other] at flagged ⊢
    exact alarms.suspended u flagged
  time u flagged := by
    have other : u ≠ t := by
      rintro rfl
      rw [woken.alarm] at flagged
      contradiction
    rw [woken.others u other] at flagged ⊢
    exact alarms.time u flagged

variable [DecidableEq Queue]

theorem unblock_spec (s : Scheduler Thread Queue) (t : Thread) :
    (s.unblock t).alarmList = s.alarmList ∧ (∀ u, u ≠ t → (s.unblock t).ctx u = s.ctx u) ∧
      ((s.unblock t).ctx t).alarm = (s.ctx t).alarm := by
  rw [unblock]
  cases (s.ctx t).blockqueue with
  | none => exact ⟨rfl, fun _ _ => rfl, rfl⟩
  | some queue =>
      refine ⟨rfl, fun u other => Function.update_of_ne other _ _, ?_⟩
      simp [setCtx]

theorem iresumeThread_spec (idle : (s.ctx t).status ≠ .running)
    (listed : t ∈ s.alarmList → (s.ctx t).alarm = true) : Woken s (s.iresumeThread t) t := by
  let off := if (s.ctx t).alarm then s.removeFromAlarmQ t else s
  have list : off.alarmList = s.alarmList.erase t := by
    show (if (s.ctx t).alarm then s.removeFromAlarmQ t else s).alarmList = _
    split
    · rfl
    · rename_i silent
      exact (List.erase_of_not_mem fun member => silent (listed member)).symm
  have others : ∀ u, u ≠ t → off.ctx u = s.ctx u := by
    intro u other
    show (if (s.ctx t).alarm then s.removeFromAlarmQ t else s).ctx u = _
    split
    · exact Function.update_of_ne other _ _
    · rfl
  have alarm : (off.ctx t).alarm = false := by
    show ((if (s.ctx t).alarm then s.removeFromAlarmQ t else s).ctx t).alarm = _
    split
    · simp [removeFromAlarmQ, setCtx]
    · rename_i silent
      exact eq_false_of_ne_true silent
  obtain ⟨list', others', alarm'⟩ := unblock_spec off t
  have resumed : s.iresumeThread t =
      ((off.unblock t).setCtx t { (off.unblock t).ctx t with status := .running }).setReady
        ((off.unblock t).ctx t).priority
        ((off.unblock t).ready ((off.unblock t).ctx t).priority ++ [t]) := by
    rw [iresumeThread, if_neg idle]
    simp [setCtx, off]
  rw [resumed]
  refine ⟨list'.trans list, fun u other => ?_, ?_, ?_⟩
  · exact (Function.update_of_ne other _ _).trans ((others' u other).trans (others u other))
  · simpa [setCtx, setReady] using alarm'.trans alarm
  · simp [setCtx, setReady]

namespace Alarms

theorem iresumeThread (alarms : s.Alarms) (t : Thread) : (s.iresumeThread t).Alarms := by
  by_cases idle : (s.ctx t).status = .running
  · rw [Scheduler.iresumeThread, if_pos idle]
    exact alarms
  · exact (iresumeThread_spec idle (alarms.mem_iff t).mp).alarms alarms

theorem resumeThread (alarms : s.Alarms) (t : Thread) : (s.resumeThread t).Alarms := by
  have first : ∀ s' : Scheduler Thread Queue, s'.Alarms →
      (if (s'.ctx t).killed then s'.iresumeThread t else s').Alarms := by
    intro s' alarms
    split
    · exact alarms.iresumeThread t
    · exact alarms
  rw [Scheduler.resumeThread]
  apply first
  split
  · exact (alarms.setCtx { s.ctx t with userSuspend := false } rfl rfl rfl
      (alarms.suspended t)).iresumeThread t
  · exact alarms

theorem stopThread (alarms : s.Alarms) (t : Thread) : (s.stopThread t).Alarms :=
  (alarms.setCtx { s.ctx t with killed := true } rfl rfl rfl (alarms.suspended t)).resumeThread t

theorem suspendOnQThread (alarms : s.Alarms) (t : Thread) (queue : Option Queue)
    {timeout now : Time} (after : 0 ≤ now.toInt) :
    (s.suspendOnQThread t queue timeout now).Alarms := by
  have timed : ∀ s' : Scheduler Thread Queue, s'.Alarms → (s'.ctx t).alarm = false →
      (s'.ctx t).status = .suspended →
        (if 0 < timeout.toInt then s'.addToAlarmQ t timeout now else s').Alarms := by
    intro s' alarms silent suspended
    split
    · rename_i positive
      exact alarms.addToAlarmQ silent suspended positive after
    · exact alarms
  rw [Scheduler.suspendOnQThread]
  split
  · exact alarms
  · rename_i awake
    have silent := alarms.silent awake
    have suspended := alarms.setCtx { s.ctx t with status := .suspended } rfl rfl rfl fun _ => rfl
    dsimp only
    split
    · cases queue with
      | none =>
          apply timed
          · exact suspended.setReady _ _
          · simpa [Scheduler.setCtx, Scheduler.setReady] using silent
          · simp [Scheduler.setCtx, Scheduler.setReady]
      | some queue =>
          apply timed
          · refine ((suspended.setReady _ _).setWaiting queue _).setCtx _ rfl rfl rfl fun _ => ?_
            simp [Scheduler.setCtx, Scheduler.setReady]
          · simpa [Scheduler.setCtx, Scheduler.setReady] using silent
          · simp [Scheduler.setCtx, Scheduler.setReady]
    · exact suspended

/-- The loop takes the threads whose time has come off the list, and they go on. -/
theorem wakeDue (alarms : s.Alarms) (now : Time) {fuel : Nat}
    (enough : s.alarmList.length ≤ fuel) : s.Rings now (Scheduler.wakeDue now fuel s) := by
  induction fuel generalizing s with
  | zero =>
      refine alarms.rings_self fun t member => ?_
      rw [List.eq_nil_of_length_eq_zero (Nat.le_zero.mp enough)] at member
      contradiction
  | succ fuel ih =>
      rw [Scheduler.wakeDue]
      cases list : s.alarmList with
      | nil =>
          refine alarms.rings_self fun t member => ?_
          rw [list] at member
          contradiction
      | cons first rest =>
          dsimp only
          split
          · rename_i due
            have flagged := (alarms.mem_iff first).mp (list ▸ List.mem_cons_self)
            have idle : (s.ctx first).status ≠ .running := by
              rw [alarms.suspended first flagged]
              decide
            have popped : Woken { s with alarmList := rest }
                (Scheduler.iresumeThread { s with alarmList := rest } first) first :=
              iresumeThread_spec idle fun _ => flagged
            have unlisted : first ∉ rest := (List.nodup_cons.mp (list ▸ alarms.nodup)).1
            have shorter : (Scheduler.iresumeThread { s with alarmList := rest } first).alarmList =
                rest := popped.list.trans (List.erase_of_not_mem unlisted)
            have woken : Woken s (Scheduler.iresumeThread { s with alarmList := rest } first)
                first :=
              ⟨by rw [shorter, list, List.erase_cons_head], popped.others, popped.alarm,
                popped.status⟩
            have later := ih (woken.alarms alarms) (by
              rw [shorter]
              rw [list] at enough
              exact Nat.le_of_succ_le_succ enough)
            refine ⟨later.alarms, fun t => ?_⟩
            have there := later.due t
            by_cases same : t = first
            · subst same
              rw [woken.alarm, if_neg (fun both => Bool.false_ne_true both.1)] at there
              rw [if_pos ⟨flagged, due⟩, there]
              exact woken.status
            · rwa [woken.others t same] at there
          · rename_i notDue
            refine alarms.rings_self fun t member => ?_
            have sorted := alarms.sorted
            rw [list] at member sorted
            have head : (s.ctx first).time.toInt ≤ (s.ctx t).time.toInt := by
              cases List.mem_cons.mp member with
              | inl same => rw [same]
              | inr behind => exact (List.pairwise_cons.mp sorted).1 t behind
            exact lt_of_lt_of_le (not_le.mp notDue) head

end Alarms

theorem Alarms.step (alarms : s.Alarms) (event : Event Thread Queue) (enabled : s.Enabled event) :
    (s.step event).Alarms := by
  cases event with
  | suspendOnQ t queue timeout now => exact alarms.suspendOnQThread t queue enabled.2
  | iresume t => exact alarms.iresumeThread t
  | resume t => exact alarms.resumeThread t
  | suspend t => exact alarms.suspendThread t
  | stop t => exact alarms.stopThread t
  | kill t => exact alarms.killThread enabled
  | signal now blocked =>
      cases blocked with
      | true => exact alarms
      | false => exact (alarms.wakeDue now (Nat.le_refl _)).alarms

def Right (s : Scheduler Thread Queue) (now : Time) (blocked : Bool) : Prop :=
  ∀ t, (s.ctx t).status ≠ .running ∧ ((s.alarmException now blocked).ctx t).status = .running ↔
    (s.ctx t).alarm = true ∧ (s.ctx t).due ≤ now.toNat

def Step (s next : Scheduler Thread Queue) : Prop :=
  ∃ event, s.Enabled event ∧ s.step event = next

theorem alarms_of_reachable (reached : Reachable Initial Step s) : s.Alarms :=
  reached.invariant Alarms (fun _ => alarms_of_initial) fun _ _ alarms ⟨event, enabled, taken⟩ =>
    taken ▸ alarms.step event enabled

namespace Alarms

/-- An unblocked signal is right if all sums fit. -/
theorem right_iff (alarms : s.Alarms) {now : Time} (after : 0 ≤ now.toInt) :
    s.Right now false ↔ ∀ t, (s.ctx t).alarm = true → s.Fits t := by
  have value : now.toInt = now.toNat := by
    have small := toNat_lt_of_nonneg after
    rw [BitVec.toInt_eq_toNat_cond, if_pos (by omega)]
  have resumed : ∀ t, (s.ctx t).status ≠ .running ∧
      ((s.alarmException now false).ctx t).status = .running ↔
        (s.ctx t).alarm = true ∧ (s.ctx t).time.toInt ≤ now.toInt := by
    intro t
    have rings := (alarms.wakeDue now (Nat.le_refl _)).due t
    constructor
    · rintro ⟨idle, running⟩
      by_contra notDue
      rw [if_neg notDue] at rings
      exact idle (rings ▸ running)
    · intro due
      rw [if_pos due] at rings
      refine ⟨?_, rings⟩
      rw [alarms.suspended t due.1]
      decide
  have right_at : ∀ t, (s.ctx t).alarm = true →
      (((s.ctx t).time.toInt ≤ now.toInt ↔ (s.ctx t).due ≤ now.toNat) ↔ s.Fits t) := by
    intro t flagged
    have small := toNat_lt_of_nonneg after
    by_cases fits : s.Fits t
    · rw [alarms.toInt_time flagged fits, value, Int.ofNat_le]
      exact iff_of_true Iff.rfl fits
    · have negative := alarms.toInt_time_neg flagged fits
      refine iff_of_false (fun same => ?_) fits
      have due := same.mp (negative.le.trans after)
      exact fits (Nat.lt_of_le_of_lt due small)
  unfold Right
  constructor
  · intro right t flagged
    refine (right_at t flagged).mp ?_
    have here := (resumed t).symm.trans (right t)
    rwa [and_iff_right flagged, and_iff_right flagged] at here
  · intro fits t
    rw [resumed t]
    exact and_congr_right fun flagged => (right_at t flagged).mpr (fits t flagged)

end Alarms

theorem right_blocked_iff (s : Scheduler Thread Queue) (now : Time) :
    s.Right now true ↔ ∀ t, (s.ctx t).alarm = true → now.toNat < (s.ctx t).due := by
  apply forall_congr'
  intro t
  have stays : ¬ ((s.ctx t).status ≠ .running ∧
      ((s.alarmException now true).ctx t).status = .running) := fun both => both.1 both.2
  rw [iff_false_left stays, not_and, Nat.not_le]

/-- In every reachable state the list of alarms is sorted and has exactly the threads with an
alarm, once each.  A signal resumes exactly those whose timeout has elapsed, if and only if no
wake-up time overflowed, or, while it is put off, none has elapsed. -/
theorem alarms_right_iff (reached : Reachable Initial Step s) :
    s.Alarms ∧
    ((∀ t, (s.ctx t).alarm = true → s.Fits t) →
      s.alarmList.Pairwise fun t u => (s.ctx t).due ≤ (s.ctx u).due) ∧
    ∀ now : Time, 0 ≤ now.toInt →
      (s.Right now false ↔ ∀ t, (s.ctx t).alarm = true → s.Fits t) ∧
      (s.Right now true ↔ ∀ t, (s.ctx t).alarm = true → now.toNat < (s.ctx t).due) := by
  have alarms := alarms_of_reachable reached
  exact ⟨alarms, alarms.sorted_due,
    fun now after => ⟨alarms.right_iff after, s.right_blocked_iff now⟩⟩

end

def twoThreads : Scheduler Bool Unit where
  ready := fun _ => [true, false]
  waiting := fun _ => []
  alarmList := []
  ctx := fun _ => ⟨.running, false, false, false, 4, none, 0, 0⟩

def sleeping (timeout : Time) : Scheduler Bool Unit :=
  twoThreads.suspendOnQThread true none timeout 1

theorem reachable_sleeping {timeout : Time} (nonneg : 0 ≤ timeout.toInt) :
    Reachable Initial Step (sleeping timeout) :=
  (Reachable.start ⟨rfl, fun _ => rfl⟩).tail
    ⟨.suspendOnQ true none timeout 1, ⟨nonneg, by decide⟩, rfl⟩

def sleepers : Scheduler Bool Unit :=
  (((sleeping 10).suspendOnQThread false none 5 2).alarmException 7 false).suspendOnQThread
    false none 20 8

theorem reachable_sleepers : Reachable Initial Step sleepers := by
  have first : Reachable Initial Step (sleeping 10) := reachable_sleeping (by decide)
  have second := first.tail ⟨.suspendOnQ false none 5 2, ⟨by decide, by decide⟩, rfl⟩
  have third := second.tail ⟨.signal 7 false, (by decide : 0 ≤ (7 : Time).toInt), rfl⟩
  exact third.tail ⟨.suspendOnQ false none 20 8, ⟨by decide, by decide⟩, rfl⟩

theorem alarms_right_iff_sleeping :
    ((sleeping 10).suspendOnQThread false none 5 2).alarmList = [false, true] ∧
    sleepers.alarmList = [true, false] ∧ sleepers.Alarms ∧
    ((∀ t, (sleepers.ctx t).alarm = true → sleepers.Fits t) →
      sleepers.alarmList.Pairwise fun t u => (sleepers.ctx t).due ≤ (sleepers.ctx u).due) ∧
    ∀ now : Time, 0 ≤ now.toInt →
      (sleepers.Right now false ↔ ∀ t, (sleepers.ctx t).alarm = true → sleepers.Fits t) ∧
      (sleepers.Right now true ↔
        ∀ t, (sleepers.ctx t).alarm = true → now.toNat < (sleepers.ctx t).due) :=
  ⟨by decide, by decide, alarms_right_iff reachable_sleepers⟩

def longest : Time :=
  0x7fffffffffffffff

/-- The thread sleeps as long as it can say, and the next signal resumes it. -/
theorem longest_sleep_resumed :
    ∃ s : Scheduler Bool Unit, Reachable Initial Step s ∧ ¬ s.Right 1 false := by
  refine ⟨sleeping longest, reachable_sleeping (by decide +kernel), fun right => ?_⟩
  have resumed : ((sleeping longest).ctx true).status ≠ .running ∧
      (((sleeping longest).alarmException 1 false).ctx true).status = .running := by
    decide +kernel
  exact absurd ((right true).mp resumed).2 (by decide +kernel)

end Scheduler

end LaTTe.Threads.Alarm
