import LaTTe.Threads.BlockOnFile
import Mathlib.Logic.Basic

namespace LaTTe.Threads

namespace IoState

variable {Thread : Type}

/-! Whether the descriptors that threads wait for are those that `select` is asked about. -/

/-- `checkEvents` asks `select` about the descriptor. -/
def Asked (s : IoState Thread) (op : Direction) (fd : Nat) : Prop :=
  s.pending op fd = true ∧ (fd : Int) < s.maxFd + 1

def Watched (s : IoState Thread) : Prop :=
  ∀ op fd, s.queue op fd ≠ [] → s.Asked op fd

def Careful (s : IoState Thread) : IoEvent Thread → Prop
  | .switch tid usable =>
      (s.ctx tid).killed = false → ∀ op fd, (s.ctx tid).call = some (op, fd) →
        s.queue op fd = [] ∨ (s.ctx tid).error = true ∧ usable = false
  | _ => True

theorem Initial.watched {s : IoState Thread} (initial : s.Initial) : s.Watched :=
  fun op fd waits => absurd (initial.queue op fd) waits

inductive Run [DecidableEq Thread] (allowed : IoState Thread → IoEvent Thread → Prop) : IoState Thread → Prop
  | start {s : IoState Thread} (initial : s.Initial) : Run allowed s
  | step {s : IoState Thread} (run : Run allowed s) (event : IoEvent Thread)
      (enabled : s.Enabled event) (permitted : allowed s event) : Run allowed (s.step event)

/-! Steps that at most take threads out of queues. -/

structure Shrinks (s t : IoState Thread) : Prop where
  maxFd : t.maxFd = s.maxFd
  pending : t.pending = s.pending
  queue : ∀ op fd, s.queue op fd = [] → t.queue op fd = []

namespace Shrinks

variable {s t u : IoState Thread}

theorem refl (s : IoState Thread) : Shrinks s s :=
  ⟨rfl, rfl, fun _ _ => id⟩

theorem trans (first : Shrinks s t) (second : Shrinks t u) : Shrinks s u where
  maxFd := second.maxFd.trans first.maxFd
  pending := second.pending.trans first.pending
  queue := fun op fd empty => second.queue op fd (first.queue op fd empty)

theorem watched (shrinks : Shrinks s t) (watched : s.Watched) : t.Watched := by
  intro op fd waits
  have asked := watched op fd fun empty => waits (shrinks.queue op fd empty)
  unfold Asked at asked ⊢
  rwa [shrinks.pending, shrinks.maxFd]

theorem foldl {α : Type} {f : IoState Thread → α → IoState Thread}
    (each : ∀ s a, Shrinks s (f s a)) (as : List α) (s : IoState Thread) :
    Shrinks s (as.foldl f s) := by
  induction as generalizing s with
  | nil => exact refl s
  | cons a rest ih => exact (each s a).trans (ih (f s a))

theorem setQueue (s : IoState Thread) (op : Direction) (fd : Nat) {threads : List Thread}
    (shorter : s.queue op fd = [] → threads = []) : Shrinks s (s.setQueue op fd threads) where
  maxFd := rfl
  pending := rfl
  queue := by
    intro op' fd' empty
    show Function.update s.queue op (Function.update (s.queue op) fd threads) op' fd' = []
    by_cases same : op' = op
    · subst same
      rw [Function.update_self]
      by_cases same' : fd' = fd
      · subst same'
        rw [Function.update_self, shorter empty]
      · rw [Function.update_of_ne same', empty]
    · rw [Function.update_of_ne same, empty]

variable [DecidableEq Thread]

theorem setCtx (s : IoState Thread) (tid : Thread) (ctx : Ctx) : Shrinks s (s.setCtx tid ctx) :=
  ⟨rfl, rfl, fun _ _ => id⟩

theorem iresumeThread (s : IoState Thread) (tid : Thread) : Shrinks s (s.iresumeThread tid) := by
  unfold IoState.iresumeThread
  by_cases running : (s.ctx tid).status = .running
  · rw [if_pos running]
    exact refl s
  · rw [if_neg running]
    cases (s.ctx tid).blockqueue with
    | none => exact setCtx s tid _
    | some queue =>
        refine (setCtx s tid _).trans (setQueue _ queue.1 queue.2 fun empty => ?_)
        have empty : s.queue queue.1 queue.2 = [] := empty
        rw [empty, List.erase_nil]

theorem resumeUser (s : IoState Thread) (tid : Thread) : Shrinks s (s.resumeUser tid) := by
  unfold IoState.resumeUser
  split
  · exact (setCtx s tid _).trans (iresumeThread _ tid)
  · exact refl s

theorem resumeKilled (s : IoState Thread) (tid : Thread) : Shrinks s (s.resumeKilled tid) := by
  unfold IoState.resumeKilled
  split
  · exact iresumeThread s tid
  · exact refl s

theorem resumeThread (s : IoState Thread) (tid : Thread) : Shrinks s (s.resumeThread tid) :=
  (resumeUser s tid).trans (resumeKilled _ tid)

theorem stopThread (s : IoState Thread) (tid : Thread) : Shrinks s (s.stopThread tid) := by
  unfold IoState.stopThread
  split
  · exact refl s
  · exact (setCtx s tid _).trans (resumeThread _ tid)

theorem suspendThread (s : IoState Thread) (tid : Thread) : Shrinks s (s.suspendThread tid) := by
  unfold IoState.suspendThread
  split
  · exact refl s
  · exact setCtx s tid _

theorem resumeQueue (s : IoState Thread) (op : Direction) (fd : Nat) :
    Shrinks s (s.resumeQueue op fd) :=
  (foldl iresumeThread _ s).trans (setQueue _ op fd fun _ => rfl)

theorem failQueue (s : IoState Thread) (op : Direction) (fd : Nat) :
    Shrinks s (s.failQueue op fd) :=
  (foldl (fun s tid => (setCtx s tid _).trans (iresumeThread _ tid)) _ s).trans
    (setQueue _ op fd fun _ => rfl)

theorem resumeReady (set : Nat → Bool) (op : Direction) (fd : Nat)
    (state : IoState Thread × Int) : Shrinks state.1 (resumeReady set op fd state).1 := by
  unfold IoState.resumeReady
  split
  · exact resumeQueue state.1 op fd
  · exact refl state.1

theorem resumeBoth (rd wr : Nat → Bool) (state : IoState Thread × Int) (fd : Nat) :
    Shrinks state.1 (resumeBoth rd wr state fd).1 := by
  unfold IoState.resumeBoth
  split
  · exact (resumeReady rd .read fd state).trans (resumeReady wr .write fd _)
  · exact refl state.1

theorem checkReady (rd wr : Nat → Bool) (fds : List Nat) (state : IoState Thread × Int) :
    Shrinks state.1 (fds.foldl (IoState.resumeBoth rd wr) state).1 := by
  induction fds generalizing state with
  | nil => exact refl state.1
  | cons fd rest ih => exact (resumeBoth rd wr state fd).trans (ih _)

theorem checkEvents (s : IoState Thread) (selected : Selected) :
    Shrinks s (s.checkEvents selected) := by
  cases selected with
  | interrupted => exact refl s
  | failed => exact foldl (fun s fd => (failQueue s .read fd).trans (failQueue _ .write fd)) _ s
  | ready rd wr r => exact checkReady rd wr _ (s, r)

end Shrinks

/-! Steps that change what is watched. -/

section

variable {s : IoState Thread} {tid : Thread} {op op' : Direction} {fd fd' : Nat}

theorem setPending_self (watched : Bool) : (s.setPending op fd watched).pending op fd = watched := by
  show Function.update s.pending op (Function.update (s.pending op) fd watched) op fd = watched
  rw [Function.update_self, Function.update_self]

theorem setPending_other (watched : Bool) (apart : op' = op → fd' ≠ fd) :
    (s.setPending op fd watched).pending op' fd' = s.pending op' fd' := by
  show Function.update s.pending op (Function.update (s.pending op) fd watched) op' fd' = _
  by_cases same : op' = op
  · subst same
    rw [Function.update_self, Function.update_of_ne (apart rfl)]
  · rw [Function.update_of_ne same]

theorem setQueue_other (threads : List Thread) (apart : op' = op → fd' ≠ fd) :
    (s.setQueue op fd threads).queue op' fd' = s.queue op' fd' := by
  show Function.update s.queue op (Function.update (s.queue op) fd threads) op' fd' = _
  by_cases same : op' = op
  · subst same
    rw [Function.update_self, Function.update_of_ne (apart rfl)]
  · rw [Function.update_of_ne same]

theorem cleared_watched_iff (watched : s.Watched) {t : IoState Thread}
    (pending : t.pending = (s.setPending op fd false).pending) (maxFd : t.maxFd = s.maxFd)
    (queue : t.queue = s.queue) : t.Watched ↔ s.queue op fd = [] := by
  constructor
  · intro watched'
    by_contra waits
    obtain ⟨asked, _⟩ := watched' op fd (queue ▸ waits)
    rw [pending, setPending_self] at asked
    contradiction
  · intro empty op' fd' waits
    rw [queue] at waits
    have apart : op' = op → fd' ≠ fd := by
      rintro rfl rfl
      exact waits empty
    unfold Asked
    rw [pending, maxFd, setPending_other false apart]
    exact watched op' fd' waits

variable [DecidableEq Thread]

theorem suspendOnQThread_other (apart : op' = op → fd' ≠ fd) :
    (s.suspendOnQThread tid op fd).queue op' fd' = s.queue op' fd' := by
  unfold suspendOnQThread
  split
  · rfl
  · exact setQueue_other _ apart

theorem suspendOnQThread_watch (tid : Thread) (op : Direction) (fd : Nat) :
    (s.suspendOnQThread tid op fd).pending = s.pending ∧
      (s.suspendOnQThread tid op fd).maxFd = s.maxFd := by
  unfold suspendOnQThread
  split
  · exact ⟨rfl, rfl⟩
  · exact ⟨rfl, rfl⟩

theorem waitOnFile_watched
    (others : ∀ op' fd', (op' = op → fd' ≠ fd) → s.queue op' fd' ≠ [] → s.Asked op' fd') :
    (s.waitOnFile tid op fd).Watched := by
  intro op' fd' waits
  obtain ⟨pending, maxFd⟩ := suspendOnQThread_watch
    (s := { (s.setCtx tid { s.ctx tid with call := some (op, fd) }).setPending op fd true with
      maxFd := max s.maxFd fd }) tid op fd
  unfold Asked waitOnFile
  rw [pending, maxFd]
  by_cases same : op' = op ∧ fd' = fd
  · obtain ⟨rfl, rfl⟩ := same
    exact ⟨setPending_self true, Int.lt_add_one_of_le (Int.le_max_right _ _)⟩
  · have apart : op' = op → fd' ≠ fd := fun first second => same ⟨first, second⟩
    have waits' : s.queue op' fd' ≠ [] := by
      unfold waitOnFile at waits
      rwa [suspendOnQThread_other apart] at waits
    obtain ⟨asked, below⟩ := others op' fd' apart waits'
    refine ⟨(setPending_other true apart).trans asked, ?_⟩
    exact Int.lt_of_lt_of_le below (Int.add_le_add_right (Int.le_max_left _ _) 1)

theorem blockOnFile_watched (watched : s.Watched) (fd : Int) (usable : Bool) :
    (s.blockOnFile tid op fd usable).Watched := by
  unfold blockOnFile
  split
  · exact watched
  · split
    · exact watched
    · exact waitOnFile_watched fun op' fd' _ => watched op' fd'

theorem resumeOnFile_watched_iff (watched : s.Watched) (usable : Bool) :
    (s.resumeOnFile tid op fd usable).Watched ↔
      s.queue op fd = [] ∨ (s.ctx tid).error = true ∧ usable = false := by
  unfold resumeOnFile
  cases error : (s.ctx tid).error with
  | false =>
      rw [if_neg Bool.false_ne_true]
      exact (cleared_watched_iff watched rfl rfl rfl).trans
        ⟨.inl, fun either => either.elim id fun retry => absurd retry.1 Bool.false_ne_true⟩
  | true =>
      rw [if_pos rfl]
      cases usable with
      | true =>
          rw [if_pos rfl]
          exact (cleared_watched_iff watched rfl rfl rfl).trans
            ⟨.inl, fun either => either.elim id fun retry =>
              absurd retry.2.symm Bool.false_ne_true⟩
      | false =>
          rw [if_neg Bool.false_ne_true]
          refine iff_of_true (waitOnFile_watched fun op' fd' apart waits => ?_) (.inr ⟨rfl, rfl⟩)
          obtain ⟨asked, below⟩ := watched op' fd' waits
          exact ⟨(setPending_other false apart).trans asked, below⟩

theorem switchTo_watched_iff (watched : s.Watched) (usable : Bool) :
    (s.switchTo tid usable).Watched ↔ s.Careful (.switch tid usable) := by
  show _ ↔ ((s.ctx tid).killed = false → ∀ op fd, (s.ctx tid).call = some (op, fd) →
    s.queue op fd = [] ∨ (s.ctx tid).error = true ∧ usable = false)
  unfold switchTo
  cases killed : (s.ctx tid).killed with
  | true =>
      rw [if_pos rfl]
      exact iff_of_true ((Shrinks.setCtx s tid _).watched watched)
        fun absurd => nomatch absurd
  | false =>
      rw [if_neg Bool.false_ne_true]
      cases call : (s.ctx tid).call with
      | none => exact iff_of_true watched fun _ _ _ absurd => nomatch absurd
      | some place =>
          refine (resumeOnFile_watched_iff watched usable).trans ⟨fun fine _ op fd same => ?_,
            fun careful => careful rfl place.1 place.2 rfl⟩
          obtain rfl := Option.some.inj same
          exact fine

theorem step_watched_iff (watched : s.Watched) (event : IoEvent Thread) :
    (s.step event).Watched ↔ s.Careful event := by
  cases event with
  | switch tid usable => exact switchTo_watched_iff watched usable
  | block tid op fd usable => exact iff_of_true (blockOnFile_watched watched fd usable) trivial
  | check selected => exact iff_of_true ((Shrinks.checkEvents s selected).watched watched) trivial
  | stop tid => exact iff_of_true ((Shrinks.stopThread s tid).watched watched) trivial
  | suspend tid => exact iff_of_true ((Shrinks.suspendThread s tid).watched watched) trivial
  | resume tid => exact iff_of_true ((Shrinks.resumeThread s tid).watched watched) trivial
  | kill tid => exact iff_of_true ((Shrinks.setCtx s tid _).watched watched) trivial
  | waitElsewhere tid => exact iff_of_true ((Shrinks.setCtx s tid _).watched watched) trivial
  | wakeElsewhere tid => exact iff_of_true ((Shrinks.iresumeThread s tid).watched watched) trivial

/-- In every run of careful steps the descriptors with waiting threads are asked about, and
they stay so in the next step exactly if that is careful too. -/
theorem waiters_watched (run : Run Careful s) :
    s.Watched ∧ ∀ event, s.Enabled event → ((s.step event).Watched ↔ s.Careful event) := by
  have watched : s.Watched := by
    induction run with
    | start initial => exact initial.watched
    | step run event enabled permitted ih => exact (step_watched_iff ih event).mpr permitted
  exact ⟨watched, fun event _ => step_watched_iff watched event⟩

end

/-! Two threads that wait for one descriptor. -/

def twoThreads : IoState Bool :=
  ⟨-1, fun _ _ => false, fun _ _ => [],
    fun _ => ⟨.running, false, false, false, false, none, none⟩⟩

theorem twoThreads_initial : twoThreads.Initial :=
  ⟨rfl, fun _ _ => rfl, fun _ _ => rfl, fun _ => ⟨rfl, rfl⟩⟩

theorem waiters_watched_two :
    ∃ s : IoState Bool, Run Careful s ∧ s.queue .read 5 ≠ [] ∧ s.Watched ∧
      ∀ event, s.Enabled event → ((s.step event).Watched ↔ s.Careful event) := by
  have first : Run Careful (twoThreads.step (.block false .read 5 false)) :=
    .step (.start twoThreads_initial) _ ⟨rfl, rfl, by decide⟩ trivial
  have run := first.step (.block true .read 5 false) ⟨rfl, rfl, by decide⟩ trivial
  exact ⟨_, run, by decide, waiters_watched run⟩

/-- Both wait and are resumed; one waits again before the other goes on. -/
theorem waiter_unwatched : ∃ s : IoState Bool, Run (fun _ _ => True) s ∧ ¬ s.Watched := by
  have first : Run (fun _ _ => True) (twoThreads.step (.block false .read 5 false)) :=
    .step (.start twoThreads_initial) _ ⟨rfl, rfl, by decide⟩ trivial
  have both := first.step (.block true .read 5 false) ⟨rfl, rfl, by decide⟩ trivial
  have resumed := both.step (.check (.ready (· == 5) (fun _ => false) 1)) trivial trivial
  have gone := resumed.step (.switch true true) (by rfl) trivial
  have again := gone.step (.block true .read 5 false) ⟨by rfl, by rfl, by decide⟩ trivial
  have run := again.step (.switch false true) (by rfl) trivial
  refine ⟨_, run, fun watched => ?_⟩
  have asked := (watched .read 5 (by decide)).1
  exact absurd asked (by decide)

end IoState

end LaTTe.Threads
