import Mathlib.Data.Int.Order.Basic
import Mathlib.Logic.Function.Basic

namespace LaTTe.Threads

/-! The threads that wait for descriptors. -/

/-- The `op` of `blockOnFile`: `TH_READ`, which is also `TH_ACCEPT`, and `TH_WRITE`, which
is also `TH_CONNECT`. -/
inductive Direction where
  | read
  | write
  deriving DecidableEq, Repr

inductive Status where
  | suspended
  | running
  | dead
  deriving DecidableEq, Repr

/-- The context of a thread.  The queue it is blocked in is that of a descriptor; `call` is
the call of `blockOnFile` that is on its stack. -/
structure Ctx where
  status : Status
  killed : Bool
  stopped : Bool
  userSuspend : Bool
  error : Bool
  blockqueue : Option (Direction × Nat)
  call : Option (Direction × Nat)

/-- `readsPending` and `writesPending` are the two sets, `readQ` and `writeQ` the queues. -/
structure IoState (Thread : Type) where
  maxFd : Int
  pending : Direction → Nat → Bool
  queue : Direction → Nat → List Thread
  ctx : Thread → Ctx

def fdSetSize : Int :=
  1024

namespace IoState

variable {Thread : Type}

def setQueue (s : IoState Thread) (op : Direction) (fd : Nat) (threads : List Thread) :
    IoState Thread :=
  { s with queue := Function.update s.queue op (Function.update (s.queue op) fd threads) }

def setPending (s : IoState Thread) (op : Direction) (fd : Nat) (watched : Bool) :
    IoState Thread :=
  { s with pending := Function.update s.pending op (Function.update (s.pending op) fd watched) }

variable [DecidableEq Thread]

def setCtx (s : IoState Thread) (tid : Thread) (ctx : Ctx) : IoState Thread :=
  { s with ctx := Function.update s.ctx tid ctx }

def iresumeThread (s : IoState Thread) (tid : Thread) : IoState Thread :=
  let ctx := s.ctx tid
  if ctx.status = .running then s
  else
    let resumed := s.setCtx tid { ctx with status := .running, blockqueue := none }
    match ctx.blockqueue with
    | none => resumed
    | some (op, fd) => resumed.setQueue op fd ((s.queue op fd).erase tid)

def resumeUser (s : IoState Thread) (tid : Thread) : IoState Thread :=
  if (s.ctx tid).userSuspend then
    iresumeThread (s.setCtx tid { s.ctx tid with userSuspend := false }) tid
  else s

def resumeKilled (s : IoState Thread) (tid : Thread) : IoState Thread :=
  if (s.ctx tid).killed then iresumeThread s tid else s

def resumeThread (s : IoState Thread) (tid : Thread) : IoState Thread :=
  resumeKilled (resumeUser s tid) tid

def suspendThread (s : IoState Thread) (tid : Thread) : IoState Thread :=
  if (s.ctx tid).status = .suspended then s
  else s.setCtx tid { s.ctx tid with status := .suspended, userSuspend := true }

def stopThread (s : IoState Thread) (tid : Thread) : IoState Thread :=
  if (s.ctx tid).status = .dead || (s.ctx tid).stopped then s
  else resumeThread (s.setCtx tid { s.ctx tid with killed := true, stopped := true }) tid

def killThread (s : IoState Thread) (tid : Thread) : IoState Thread :=
  s.setCtx tid { s.ctx tid with status := .dead }

def suspendOnQThread (s : IoState Thread) (tid : Thread) (op : Direction) (fd : Nat) :
    IoState Thread :=
  if (s.ctx tid).status = .suspended then s
  else
    (s.setCtx tid { s.ctx tid with status := .suspended, blockqueue := some (op, fd) }).setQueue
      op fd (tid :: s.queue op fd)

/-- `blockOnFile` after the quick check, up to where the thread is suspended. -/
def waitOnFile (s : IoState Thread) (tid : Thread) (op : Direction) (fd : Nat) :
    IoState Thread :=
  let called := s.setCtx tid { s.ctx tid with call := some (op, fd) }
  let watched := { called.setPending op fd true with maxFd := max s.maxFd fd }
  suspendOnQThread watched tid op fd

/-- The first part of `blockOnFile`.  The quick check says that the descriptor is usable, or
in error, or that the thread would block. -/
def blockOnFile (s : IoState Thread) (tid : Thread) (op : Direction) (fd : Int) (usable : Bool) :
    IoState Thread :=
  if fd < 0 then s
  else if usable then s
  else waitOnFile s tid op fd.toNat

def leave (s : IoState Thread) (tid : Thread) : IoState Thread :=
  s.setCtx tid { s.ctx tid with call := none }

/-- The rest of `blockOnFile`, with the quick check of a second try after an error. -/
def resumeOnFile (s : IoState Thread) (tid : Thread) (op : Direction) (fd : Nat)
    (usable : Bool) : IoState Thread :=
  let cleared := s.setPending op fd false
  if (s.ctx tid).error then
    let retrying := cleared.setCtx tid { s.ctx tid with error := false }
    if usable then leave retrying tid else waitOnFile retrying tid op fd
  else leave cleared tid

/-- What `reschedule` does in the thread it switches to: a killed one throws out of its
call, and another one goes on with it. -/
def switchTo (s : IoState Thread) (tid : Thread) (usable : Bool) : IoState Thread :=
  if (s.ctx tid).killed then s.setCtx tid { s.ctx tid with killed := false, call := none }
  else
    match (s.ctx tid).call with
    | none => s
    | some (op, fd) => resumeOnFile s tid op fd usable

/-- What `select` returns in `checkEvents`. -/
inductive Selected where
  | interrupted
  | failed
  | ready (rd wr : Nat → Bool) (r : Int)

def resumeQueue (s : IoState Thread) (op : Direction) (fd : Nat) : IoState Thread :=
  ((s.queue op fd).foldl iresumeThread s).setQueue op fd []

def failQueue (s : IoState Thread) (op : Direction) (fd : Nat) : IoState Thread :=
  ((s.queue op fd).foldl
    (fun s tid => iresumeThread (s.setCtx tid { s.ctx tid with error := true }) tid) s).setQueue
      op fd []

def resumeReady (set : Nat → Bool) (op : Direction) (fd : Nat) (state : IoState Thread × Int) :
    IoState Thread × Int :=
  if state.1.queue op fd ≠ [] ∧ set fd then (resumeQueue state.1 op fd, state.2 - 1) else state

/-- A round of the loop of `checkEvents`. -/
def resumeBoth (rd wr : Nat → Bool) (state : IoState Thread × Int) (fd : Nat) :
    IoState Thread × Int :=
  if state.2 > 0 then resumeReady wr .write fd (resumeReady rd .read fd state) else state

def checkEvents (s : IoState Thread) : Selected → IoState Thread
  | .interrupted => s
  | .failed =>
      (List.range (s.maxFd + 1).toNat).foldl
        (fun s fd => failQueue (failQueue s .read fd) .write fd) s
  | .ready rd wr r =>
      ((List.range (s.maxFd + 1).toNat).foldl (resumeBoth rd wr) (s, r)).1

end IoState

inductive IoEvent (Thread : Type) where
  | block (tid : Thread) (op : Direction) (fd : Int) (usable : Bool)
  | switch (tid : Thread) (usable : Bool)
  | check (selected : IoState.Selected)
  | stop (tid : Thread)
  | suspend (tid : Thread)
  | resume (tid : Thread)
  | kill (tid : Thread)
  | waitElsewhere (tid : Thread)
  | wakeElsewhere (tid : Thread)

namespace IoState

variable {Thread : Type} [DecidableEq Thread]

def step (s : IoState Thread) : IoEvent Thread → IoState Thread
  | .block tid op fd usable => blockOnFile s tid op fd usable
  | .switch tid usable => switchTo s tid usable
  | .check selected => checkEvents s selected
  | .stop tid => stopThread s tid
  | .suspend tid => suspendThread s tid
  | .resume tid => resumeThread s tid
  | .kill tid => killThread s tid
  | .waitElsewhere tid => s.setCtx tid { s.ctx tid with status := .suspended }
  | .wakeElsewhere tid => iresumeThread s tid

def Enabled (s : IoState Thread) : IoEvent Thread → Prop
  | .block tid _ fd _ => (s.ctx tid).status = .running ∧ (s.ctx tid).call = none ∧ fd < fdSetSize
  | .switch tid _ => (s.ctx tid).status = .running
  | .kill tid => (s.ctx tid).status = .running ∧ (s.ctx tid).call = none
  | .waitElsewhere tid => (s.ctx tid).status = .running ∧ (s.ctx tid).call = none
  | .wakeElsewhere tid => (s.ctx tid).call = none
  | _ => True

structure Initial (s : IoState Thread) : Prop where
  maxFd : s.maxFd = -1
  pending : ∀ op fd, s.pending op fd = false
  queue : ∀ op fd, s.queue op fd = []
  ctx : ∀ tid, (s.ctx tid).blockqueue = none ∧ (s.ctx tid).call = none

end IoState

end LaTTe.Threads
