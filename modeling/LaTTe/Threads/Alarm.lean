import LaTTe.Data.Insertion
import LaTTe.Threads.BlockOnFile
import Mathlib.Data.BitVec

namespace LaTTe.Threads.Alarm

open LaTTe.Data (insertByKey)
open LaTTe.Threads (Status)

/-! The threads that are suspended for a time. -/

/-- A `jlong`. -/
abbrev Time := BitVec 64

/-- The context of a thread.  `alarm`, `killed` and `userSuspend` are its flags; `due` is when
its timeout is over, which the code has in `time` only. -/
structure Context (Queue : Type) where
  status : Status
  alarm : Bool
  killed : Bool
  userSuspend : Bool
  priority : Nat
  blockqueue : Option Queue
  time : Time
  due : Nat

/-- `ready` are the queues from `threadQhead`, and `waiting` those that threads block in. -/
structure Scheduler (Thread Queue : Type) where
  ready : Nat → List Thread
  waiting : Queue → List Thread
  alarmList : List Thread
  ctx : Thread → Context Queue

namespace Scheduler

variable {Thread Queue : Type} [DecidableEq Thread] [DecidableEq Queue]

def setCtx (s : Scheduler Thread Queue) (tid : Thread) (ctx : Context Queue) :
    Scheduler Thread Queue :=
  { s with ctx := Function.update s.ctx tid ctx }

def setReady (s : Scheduler Thread Queue) (priority : Nat) (threads : List Thread) :
    Scheduler Thread Queue :=
  { s with ready := Function.update s.ready priority threads }

def setWaiting (s : Scheduler Thread Queue) (queue : Queue) (threads : List Thread) :
    Scheduler Thread Queue :=
  { s with waiting := Function.update s.waiting queue threads }

/-- `addToAlarmQ`, at the current time `now`.  The sum is not checked. -/
def addToAlarmQ (s : Scheduler Thread Queue) (tid : Thread) (timeout now : Time) :
    Scheduler Thread Queue :=
  let s := s.setCtx tid { s.ctx tid with
    alarm := true, time := timeout + now, due := timeout.toNat + now.toNat }
  { s with alarmList := insertByKey (fun t => (s.ctx t).time.toInt) tid s.alarmList }

def removeFromAlarmQ (s : Scheduler Thread Queue) (tid : Thread) : Scheduler Thread Queue :=
  let s := s.setCtx tid { s.ctx tid with alarm := false }
  { s with alarmList := s.alarmList.erase tid }

def unblock (s : Scheduler Thread Queue) (tid : Thread) : Scheduler Thread Queue :=
  match (s.ctx tid).blockqueue with
  | none => s
  | some queue =>
      (s.setWaiting queue ((s.waiting queue).erase tid)).setCtx tid
        { s.ctx tid with blockqueue := none }

def iresumeThread (s : Scheduler Thread Queue) (tid : Thread) : Scheduler Thread Queue :=
  if (s.ctx tid).status = .running then s
  else
    let s := if (s.ctx tid).alarm then s.removeFromAlarmQ tid else s
    let s := s.unblock tid
    let s := s.setCtx tid { s.ctx tid with status := .running }
    s.setReady (s.ctx tid).priority (s.ready (s.ctx tid).priority ++ [tid])

def resumeThread (s : Scheduler Thread Queue) (tid : Thread) : Scheduler Thread Queue :=
  let s :=
    if (s.ctx tid).userSuspend then
      iresumeThread (s.setCtx tid { s.ctx tid with userSuspend := false }) tid
    else s
  if (s.ctx tid).killed then iresumeThread s tid else s

def suspendThread (s : Scheduler Thread Queue) (tid : Thread) : Scheduler Thread Queue :=
  if (s.ctx tid).status = .suspended then s
  else
    let s := s.setCtx tid { s.ctx tid with status := .suspended, userSuspend := true }
    s.setReady (s.ctx tid).priority ((s.ready (s.ctx tid).priority).erase tid)

def stopThread (s : Scheduler Thread Queue) (tid : Thread) : Scheduler Thread Queue :=
  resumeThread (s.setCtx tid { s.ctx tid with killed := true }) tid

def suspendOnQThread (s : Scheduler Thread Queue) (tid : Thread) (queue : Option Queue)
    (timeout now : Time) : Scheduler Thread Queue :=
  if (s.ctx tid).status = .suspended then s
  else
    let priority := (s.ctx tid).priority
    let s := s.setCtx tid { s.ctx tid with status := .suspended }
    if tid ∈ s.ready priority then
      let s := s.setReady priority ((s.ready priority).erase tid)
      let s := match queue with
        | none => s
        | some queue =>
            (s.setWaiting queue (tid :: s.waiting queue)).setCtx tid
              { s.ctx tid with blockqueue := some queue }
      if 0 < timeout.toInt then s.addToAlarmQ tid timeout now else s
    else s

def killThread (s : Scheduler Thread Queue) (tid : Thread) : Scheduler Thread Queue :=
  if (s.ctx tid).status = .dead then s
  else
    let priority := (s.ctx tid).priority
    let s := if (s.ctx tid).status = .running then
        s.setReady priority ((s.ready priority).erase tid)
      else s
    s.setCtx tid { s.ctx tid with status := .dead }

def wakeDue (now : Time) : Nat → Scheduler Thread Queue → Scheduler Thread Queue
  | 0, s => s
  | fuel + 1, s =>
      match s.alarmList with
      | [] => s
      | tid :: rest =>
          if (s.ctx tid).time.toInt ≤ now.toInt then
            wakeDue now fuel (iresumeThread { s with alarmList := rest } tid)
          else s

/-- `alarmException`.  It comes back later if it interrupted a section with `blockInts`
set. -/
def alarmException (s : Scheduler Thread Queue) (now : Time) (blocked : Bool) :
    Scheduler Thread Queue :=
  if blocked then s else wakeDue now s.alarmList.length s

end Scheduler

inductive Event (Thread Queue : Type) where
  | suspendOnQ (tid : Thread) (queue : Option Queue) (timeout now : Time)
  | iresume (tid : Thread)
  | resume (tid : Thread)
  | suspend (tid : Thread)
  | stop (tid : Thread)
  | kill (tid : Thread)
  | signal (now : Time) (blocked : Bool)

namespace Scheduler

variable {Thread Queue : Type} [DecidableEq Thread] [DecidableEq Queue]

def step (s : Scheduler Thread Queue) : Event Thread Queue → Scheduler Thread Queue
  | .suspendOnQ tid queue timeout now => s.suspendOnQThread tid queue timeout now
  | .iresume tid => s.iresumeThread tid
  | .resume tid => s.resumeThread tid
  | .suspend tid => s.suspendThread tid
  | .stop tid => s.stopThread tid
  | .kill tid => s.killThread tid
  | .signal now blocked => s.alarmException now blocked

def Enabled (s : Scheduler Thread Queue) : Event Thread Queue → Prop
  | .suspendOnQ _ _ timeout now => 0 ≤ timeout.toInt ∧ 0 ≤ now.toInt
  | .kill tid => (s.ctx tid).status = .running
  | .signal now _ => 0 ≤ now.toInt
  | _ => True

def Initial (s : Scheduler Thread Queue) : Prop :=
  s.alarmList = [] ∧ ∀ t, (s.ctx t).alarm = false

end Scheduler

end LaTTe.Threads.Alarm
