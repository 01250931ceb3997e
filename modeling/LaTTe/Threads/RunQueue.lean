import LaTTe.Data.Links
import LaTTe.Threads.Alarm
import Mathlib.Data.Fintype.Card

namespace LaTTe.Threads.RunQueue

open LaTTe.Data (Links Place)
open LaTTe.Threads.Alarm (Context Scheduler Time)

/-! The queues of the threads as they are linked through the contexts, with a pointer to the
first and one to the last thread that can run at each priority. -/

def minPriority : Nat := 1

def maxPriority : Nat := 10

/-- `threadQhead` for a priority, or a queue that threads block in. -/
inductive Root (Queue : Type) where
  | ready (priority : Nat)
  | waiting (queue : Queue)
  deriving DecidableEq

/-- `queues` is linked by `nextQ`, and `alarms`, which starts at `alarmList`, by
`nextalarm`. -/
structure Machine (Thread Queue : Type) where
  queues : Links (Root Queue) Thread
  threadQtail : Nat → Option Thread
  alarms : Links Unit Thread
  ctx : Thread → Context Queue
  currentThread : Thread
  needReschedule : Bool

/-- `wake` resumes threads in one section without interrupts, and `signal` is the alarm.  A
thread that ends resumes those that wait for this. -/
inductive Event (Thread Queue : Type) where
  | suspendOnQ (tid : Thread) (queue : Option Queue) (timeout now : Time)
  | wake (threads : List Thread)
  | resume (tid : Thread)
  | suspend (tid : Thread)
  | stop (tid : Thread)
  | kill (tid : Thread) (waiters : List Thread)
  | signal (now : Time) (blocked : Bool)
  | setPriority (tid : Thread) (prio : Nat)
  | yield (tid : Thread)

variable {Thread Queue : Type}

def highestBelow (head : Nat → Option Thread) : Nat → Option Thread
  | 0 => none
  | i + 1 =>
      match head (i + 1) with
      | some tid => some tid
      | none => highestBelow head i

def unlinked {R : Type} [DecidableEq R] [DecidableEq Thread] [Fintype Thread]
    (links : Links R Thread) (root : R) (tid : Thread) :
    Option (Place R Thread × Links R Thread) :=
  let ntid := links.walk (fun t => decide (t = tid)) (Fintype.card Thread) (.root root)
  match links.get ntid with
  | none => none
  | some _ => some (ntid, links.set ntid (links.next tid))

namespace Machine

def threadQhead (m : Machine Thread Queue) (priority : Nat) : Option Thread :=
  m.queues.first (.ready priority)

def highest (m : Machine Thread Queue) : Option Thread :=
  highestBelow m.threadQhead maxPriority

/-- `reschedule`.  With nothing to run it waits in `checkEvents`, and goes on when something
has happened. -/
def reschedule (m : Machine Thread Queue) : Machine Thread Queue :=
  match m.highest with
  | some tid => { m with currentThread := tid, needReschedule := false }
  | none => { m with needReschedule := false }

/-- `intsRestore`, at the end of the outermost section. -/
def intsRestore (m : Machine Thread Queue) : Machine Thread Queue :=
  if m.needReschedule then m.reschedule else m

variable [DecidableEq Thread]

def setCtx (m : Machine Thread Queue) (tid : Thread) (ctx : Context Queue) :
    Machine Thread Queue :=
  { m with ctx := Function.update m.ctx tid ctx }

variable [DecidableEq Queue]

/-- The thread goes to the end of its queue.  `threadQtail` is no null pointer if the queue is
not empty. -/
def placeAtEnd (m : Machine Thread Queue) (tid : Thread) (priority : Nat) :
    Machine Thread Queue :=
  let queues :=
    match m.threadQhead priority with
    | none => m.queues.set (.root (.ready priority)) (some tid)
    | some _ =>
        match m.threadQtail priority with
        | none => m.queues
        | some last => m.queues.set (.link last) (some tid)
  { m with
    queues := queues.set (.link tid) none
    threadQtail := Function.update m.threadQtail priority (some tid) }

def yieldThread (m : Machine Thread Queue) : Machine Thread Queue :=
  let tid := m.currentThread
  let priority := (m.ctx tid).priority
  if m.threadQhead priority ≠ m.threadQtail priority then
    let queues := m.queues.set (.root (.ready priority)) (m.queues.next tid)
    let queues :=
      match m.threadQtail priority with
      | none => queues
      | some last => queues.set (.link last) (some tid)
    { m with
      queues := queues.set (.link tid) none
      threadQtail := Function.update m.threadQtail priority (some tid)
      needReschedule := true }
  else m

variable [Fintype Thread]

def addToAlarmQ (m : Machine Thread Queue) (tid : Thread) (timeout now : Time) :
    Machine Thread Queue :=
  let m := m.setCtx tid { m.ctx tid with
    alarm := true, time := timeout + now, due := timeout.toNat + now.toNat }
  let tidp := m.alarms.walk
    (fun t => decide ((m.ctx tid).time.toInt < (m.ctx t).time.toInt)) (Fintype.card Thread)
    (.root ())
  { m with alarms := (m.alarms.set (.link tid) (m.alarms.get tidp)).set tidp (some tid) }

def removeFromAlarmQ (m : Machine Thread Queue) (tid : Thread) : Machine Thread Queue :=
  let m := m.setCtx tid { m.ctx tid with alarm := false }
  match unlinked m.alarms () tid with
  | none => m
  | some (_, alarms) => { m with alarms := alarms.set (.link tid) none }

def unlink (m : Machine Thread Queue) (root : Root Queue) (tid : Thread) :
    Machine Thread Queue :=
  match unlinked m.queues root tid with
  | none => m
  | some (_, queues) => { m with queues := queues }

def unblock (m : Machine Thread Queue) (tid : Thread) : Machine Thread Queue :=
  match (m.ctx tid).blockqueue with
  | none => m
  | some queue =>
      (m.unlink (.waiting queue) tid).setCtx tid { m.ctx tid with blockqueue := none }

def iresumeThread (m : Machine Thread Queue) (tid : Thread) : Machine Thread Queue :=
  if (m.ctx tid).status = .running then m
  else
    let m := if (m.ctx tid).alarm then m.removeFromAlarmQ tid else m
    let m := m.unblock tid
    let m := m.setCtx tid { m.ctx tid with status := .running }
    let priority := (m.ctx tid).priority
    let m :=
      if m.threadQhead priority = none ∧ (m.ctx m.currentThread).priority < priority then
        { m with needReschedule := true }
      else m
    m.placeAtEnd tid priority

def resumeThread (m : Machine Thread Queue) (tid : Thread) : Machine Thread Queue :=
  let m :=
    if (m.ctx tid).userSuspend then
      (m.setCtx tid { m.ctx tid with userSuspend := false }).iresumeThread tid
    else m
  if (m.ctx tid).killed then m.iresumeThread tid else m

/-- `THREAD_STOP`. -/
def stopThread (m : Machine Thread Queue) (tid : Thread) : Machine Thread Queue :=
  (m.setCtx tid { m.ctx tid with killed := true }).resumeThread tid

/-- `threadQtail` stays as it is. -/
def suspendThread (m : Machine Thread Queue) (tid : Thread) : Machine Thread Queue :=
  if (m.ctx tid).status = .suspended then m
  else
    let m := m.setCtx tid { m.ctx tid with status := .suspended, userSuspend := true }
    match unlinked m.queues (.ready (m.ctx tid).priority) tid with
    | none => m
    | some (_, queues) =>
        let m := { m with queues := queues.set (.link tid) none }
        if tid = m.currentThread then m.reschedule else m

def leaveReady (m : Machine Thread Queue) (tid : Thread) (priority : Nat) :
    Option (Machine Thread Queue) :=
  match unlinked m.queues (.ready priority) tid with
  | none => none
  | some (ntid, queues) =>
      some { m with
        queues := queues
        threadQtail :=
          if queues.get ntid = none then Function.update m.threadQtail priority ntid.owner
          else m.threadQtail }

def block (m : Machine Thread Queue) (tid : Thread) : Option Queue → Machine Thread Queue
  | none => m
  | some queue =>
      let queues := (m.queues.set (.link tid) (m.queues.first (.waiting queue))).set
        (.root (.waiting queue)) (some tid)
      { m with queues := queues }.setCtx tid { m.ctx tid with blockqueue := some queue }

def suspendOnQThread (m : Machine Thread Queue) (tid : Thread) (queue : Option Queue)
    (timeout now : Time) : Machine Thread Queue :=
  if (m.ctx tid).status = .suspended then m
  else
    let m := m.setCtx tid { m.ctx tid with status := .suspended }
    match m.leaveReady tid (m.ctx tid).priority with
    | none => m
    | some m =>
        let m := m.block tid queue
        let m := if 0 < timeout.toInt then m.addToAlarmQ tid timeout now else m
        if tid = m.currentThread then m.reschedule else m

/-- `killThread`, after which `intsRestore` calls `reschedule`.  `threadQtail` stays as it
is. -/
def killThread (m : Machine Thread Queue) (waiters : List Thread) : Machine Thread Queue :=
  let m := waiters.foldl iresumeThread m
  let tid := m.currentThread
  if (m.ctx tid).status = .dead then m
  else
    let m :=
      if (m.ctx tid).status = .running then m.unlink (.ready (m.ctx tid).priority) tid else m
    { m.setCtx tid { m.ctx tid with status := .dead } with needReschedule := true }

def setPriorityThread (m : Machine Thread Queue) (tid : Thread) (prio : Nat) :
    Machine Thread Queue :=
  if (m.ctx tid).status = .suspended then m.setCtx tid { m.ctx tid with priority := prio }
  else
    let m := (m.leaveReady tid (m.ctx tid).priority).getD m
    let m := (m.setCtx tid { m.ctx tid with priority := prio }).placeAtEnd tid prio
    if tid = m.currentThread ∨ (m.ctx m.currentThread).priority < prio then
      { m with needReschedule := true }
    else m

def wakeDue (now : Time) : Nat → Machine Thread Queue → Machine Thread Queue
  | 0, m => m
  | fuel + 1, m =>
      match m.alarms.first () with
      | none => m
      | some tid =>
          if (m.ctx tid).time.toInt ≤ now.toInt then
            let alarms := m.alarms.set (.root ()) (m.alarms.next tid)
            wakeDue now fuel (iresumeThread { m with alarms := alarms } tid)
          else m

def alarmException (m : Machine Thread Queue) (now : Time) (blocked : Bool) :
    Machine Thread Queue :=
  if blocked then m else wakeDue now (Fintype.card Thread) m

def perform (m : Machine Thread Queue) : Event Thread Queue → Machine Thread Queue
  | .suspendOnQ tid queue timeout now => m.suspendOnQThread tid queue timeout now
  | .wake threads => threads.foldl iresumeThread m
  | .resume tid => m.resumeThread tid
  | .suspend tid => m.suspendThread tid
  | .stop tid => m.stopThread tid
  | .kill _ waiters => m.killThread waiters
  | .signal now blocked => m.alarmException now blocked
  | .setPriority tid prio => m.setPriorityThread tid prio
  | .yield _ => m.yieldThread

/-- While nothing can run, what happens happens in the loop of `reschedule`. -/
def step (m : Machine Thread Queue) (event : Event Thread Queue) : Machine Thread Queue :=
  if m.highest = none then (m.perform event).reschedule else (m.perform event).intsRestore

def Enabled (m : Machine Thread Queue) : Event Thread Queue → Prop
  | .suspendOnQ _ _ timeout now => 0 ≤ timeout.toInt ∧ 0 ≤ now.toInt
  | .kill tid _ => tid = m.currentThread ∧ (m.ctx tid).status = .running
  | .signal now _ => 0 ≤ now.toInt
  | .setPriority _ prio => minPriority ≤ prio ∧ prio ≤ maxPriority
  | .yield tid => tid = m.currentThread ∧ (m.ctx tid).status = .running
  | _ => True

instance (m : Machine Thread Queue) : (event : Event Thread Queue) → Decidable (m.Enabled event)
  | .suspendOnQ _ _ _ _ => inferInstanceAs (Decidable (_ ∧ _))
  | .wake _ => inferInstanceAs (Decidable True)
  | .resume _ => inferInstanceAs (Decidable True)
  | .suspend _ => inferInstanceAs (Decidable True)
  | .stop _ => inferInstanceAs (Decidable True)
  | .kill _ _ => inferInstanceAs (Decidable (_ ∧ _))
  | .signal _ _ => inferInstanceAs (Decidable (_ ≤ _))
  | .setPriority _ _ => inferInstanceAs (Decidable (_ ∧ _))
  | .yield _ => inferInstanceAs (Decidable (_ ∧ _))

structure Initial (m : Machine Thread Queue) : Prop where
  queues : m.queues.first = fun _ => none
  alarms : m.alarms.first = fun _ => none
  idle : ∀ t, (m.ctx t).status ≠ .running
  silent : ∀ t, (m.ctx t).alarm = false
  unblocked : ∀ t, (m.ctx t).blockqueue = none
  priority : ∀ t, minPriority ≤ (m.ctx t).priority ∧ (m.ctx t).priority ≤ maxPriority
  settled : m.needReschedule = false

end Machine

end LaTTe.Threads.RunQueue

namespace LaTTe.Threads.Alarm.Scheduler

open LaTTe.Threads.RunQueue (Root highestBelow maxPriority)

variable {Thread Queue : Type} [DecidableEq Thread] [DecidableEq Queue]

/-! What the operations are for, on lists. -/

def lists (s : Scheduler Thread Queue) : Root Queue → List Thread
  | .ready priority => s.ready priority
  | .waiting queue => s.waiting queue

def idle (ctx : Thread → Context Queue) : Scheduler Thread Queue where
  ready _ := []
  waiting _ := []
  alarmList := []
  ctx := ctx

def highest (s : Scheduler Thread Queue) : Option Thread :=
  highestBelow (fun priority => (s.ready priority).head?) maxPriority

def setPriorityThread (s : Scheduler Thread Queue) (tid : Thread) (prio : Nat) :
    Scheduler Thread Queue :=
  let s :=
    if (s.ctx tid).status = .running then
      let priority := (s.ctx tid).priority
      let s := s.setReady priority ((s.ready priority).erase tid)
      s.setReady prio (s.ready prio ++ [tid])
    else s
  s.setCtx tid { s.ctx tid with priority := prio }

def yieldThread (s : Scheduler Thread Queue) (tid : Thread) : Scheduler Thread Queue :=
  let priority := (s.ctx tid).priority
  s.setReady priority ((s.ready priority).erase tid ++ [tid])

def perform (s : Scheduler Thread Queue) :
    RunQueue.Event Thread Queue → Scheduler Thread Queue
  | .suspendOnQ tid queue timeout now => s.suspendOnQThread tid queue timeout now
  | .wake threads => threads.foldl iresumeThread s
  | .resume tid => s.resumeThread tid
  | .suspend tid => s.suspendThread tid
  | .stop tid => s.stopThread tid
  | .kill tid waiters => (waiters.foldl iresumeThread s).killThread tid
  | .signal now blocked => s.alarmException now blocked
  | .setPriority tid prio => s.setPriorityThread tid prio
  | .yield tid => s.yieldThread tid

end LaTTe.Threads.Alarm.Scheduler
