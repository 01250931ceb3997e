import Mathlib.Logic.Function.Basic

namespace LaTTe.Classes.Processing

/-! Calls of `processClass`, on the stacks of threads. -/

inductive ClassState where
  | unloaded
  | loaded
  | preloaded
  | doingPrepare
  | prepared
  | doingLink
  | linked
  | doingConstinit
  | constinit
  | doingInit
  | ok
  | error
  deriving DecidableEq, Repr

namespace ClassState

def rank : ClassState → Nat
  | unloaded => 0
  | loaded => 1
  | preloaded => 2
  | doingPrepare => 3
  | prepared => 4
  | doingLink => 5
  | linked => 6
  | doingConstinit => 7
  | constinit => 8
  | doingInit => 9
  | ok => 10
  | error => 11

def inProgress : ClassState → Bool
  | doingPrepare | doingLink | doingConstinit | doingInit => true
  | _ => false

end ClassState

inductive Work where
  | allocStaticFields
  | getClass
  | resolveObjectFields
  | resolveStaticFields
  | buildDispatchTable
  | buildInterfaceTable
  | verify2
  | verify3
  | updateHierarchy
  | makeString
  | clinit
  deriving DecidableEq, Repr

/-- The steps of `processClass`. -/
inductive Cmd (Class : Type) where
  /-- `lockMutexInt` and `unlockMutexInt` of the loading lock. -/
  | lock
  | unlock
  /-- `SET_CLASS_STATE`. -/
  | set (state : ClassState)
  /-- `DO_CLASS_STATE`. -/
  | stage (state : ClassState) (body : List (Cmd Class))
  /-- `findClass`, with an exception if it finds no class. -/
  | find
  /-- An exception if the class is being prepared. -/
  | circular
  | work (work : Work)
  /-- A call for another class, and the place it comes back to. -/
  | process (cls : Class) (tostate : ClassState)
  | await
  /-- A call for a class that is not initialized yet. -/
  | initFirst (cls : Class)
  /-- An exception if the superclass is final. -/
  | checkFinal (cls : Class)
  /-- A return if the class is being initialized. -/
  | returnIfInit

/-- The entries of a constant pool that `resolveConstants` looks for. -/
inductive Constant where
  | string
  | cls
  | other
  deriving DecidableEq, Repr

structure ClassFiles (Class : Type) where
  superclass : Class → Option Class
  interfaces : Class → List Class
  constants : Class → List Constant
  isFinal : Class → Bool
  isInterface : Class → Bool
  hasClinit : Class → Bool

section

variable {Class : Type}

def resolveConstant : Constant → List (Cmd Class)
  | .string => [.work .makeString]
  | .cls => [.work .getClass]
  | .other => []

def resolveConstants (constants : List Constant) : List (Cmd Class) :=
  .set .doingConstinit :: constants.flatMap resolveConstant ++ [.set .constinit]

def linkSuper : Option Class → List (Cmd Class)
  | none => []
  | some super => [.work .getClass, .process super .linked, .checkFinal super]

def prepare (files : ClassFiles Class) (cls : Class) : List (Cmd Class) :=
  [.circular, .set .doingPrepare, .work .allocStaticFields] ++
    linkSuper (files.superclass cls) ++
    (files.interfaces cls).map (fun _ => .work .getClass) ++
    [.work .resolveObjectFields, .work .resolveStaticFields, .work .buildDispatchTable] ++
    (if files.isInterface cls then [] else [.work .buildInterfaceTable]) ++
    [.set .prepared]

def link : List (Cmd Class) :=
  [.set .doingLink, .work .verify2, .work .verify3, .work .updateHierarchy, .set .linked]

def initClass (files : ClassFiles Class) (cls : Class) : List (Cmd Class) :=
  .returnIfInit :: resolveConstants (files.constants cls) ++
    [.set .doingInit, .unlock] ++
    ((files.superclass cls).toList ++ files.interfaces cls).map .initFirst ++
    (if files.hasClinit cls then [.work .clinit] else []) ++
    [.lock, .set .ok]

def processClass (files : ClassFiles Class) (cls : Class) : List (Cmd Class) :=
  [.lock, .stage .loaded [.find], .stage .prepared (prepare files cls), .stage .linked link,
    .stage .ok (initClass files cls), .unlock]

end

structure Call (Class : Type) where
  id : Nat
  cls : Class
  tostate : ClassState
  rest : List (Cmd Class)
  taken : Nat
  released : Nat

/-- The owner of a class is the call that set its state last; an exception that was raised
goes through the calls of the stack. -/
structure Machine (Thread Class : Type) where
  state : Class → ClassState
  owner : Class → Nat
  loadingLock : Class → Option (Thread × Nat)
  stack : Thread → List (Call Class)
  raised : Thread → Bool
  nextId : Nat
  ended : List (Call Class)

namespace Machine

variable {Thread Class : Type} [DecidableEq Thread] [DecidableEq Class]

def put (m : Machine Thread Class) (t : Thread) (calls : List (Call Class)) :
    Machine Thread Class :=
  { m with stack := Function.update m.stack t calls }

def leave (m : Machine Thread Class) (t : Thread) (call : Call Class)
    (others : List (Call Class)) (raised : Bool) : Machine Thread Class :=
  { m.put t others with
    raised := Function.update m.raised t raised
    ended := call :: m.ended }

def enter (files : ClassFiles Class) (m : Machine Thread Class) (t : Thread) (cls : Class)
    (tostate : ClassState) (others : List (Call Class)) : Machine Thread Class :=
  { m.put t (⟨m.nextId, cls, tostate, processClass files cls, 0, 0⟩ :: others) with
    nextId := m.nextId + 1 }

def mayLock (m : Machine Thread Class) (t : Thread) (cls : Class) : Bool :=
  match m.loadingLock cls with
  | none => true
  | some (holder, _) => holder = t

def takeLock (m : Machine Thread Class) (t : Thread) (cls : Class) : Machine Thread Class :=
  let count := match m.loadingLock cls with
    | none => 0
    | some (_, count) => count
  { m with loadingLock := Function.update m.loadingLock cls (some (t, count + 1)) }

def dropLock (m : Machine Thread Class) (cls : Class) : Machine Thread Class :=
  { m with
    loadingLock := Function.update m.loadingLock cls
      (match m.loadingLock cls with
      | some (holder, count + 2) => some (holder, count + 1)
      | _ => none) }

def setState (m : Machine Thread Class) (call : Call Class) (state : ClassState) :
    Machine Thread Class :=
  { m with
    state := Function.update m.state call.cls state
    owner := Function.update m.owner call.cls call.id }

/-- The test of `DO_CLASS_STATE`. -/
def reaches (m : Machine Thread Class) (call : Call Class) (state : ClassState) : Bool :=
  state.rank > (m.state call.cls).rank && state.rank ≤ call.tostate.rank

def release (m : Machine Thread Class) (t : Thread) (call : Call Class)
    (others : List (Call Class)) (raised : Bool) : Machine Thread Class :=
  (m.dropLock call.cls).leave t { call with released := call.released + 1 } others raised

def advance (files : ClassFiles Class) (m : Machine Thread Class) (t : Thread)
    (call : Call Class) (others : List (Call Class)) : Option (Machine Thread Class) :=
  match call.rest with
  | [] => some (m.leave t call others false)
  | .lock :: rest =>
      if m.mayLock t call.cls then
        some ((m.takeLock t call.cls).put t
          ({ call with rest := rest, taken := call.taken + 1 } :: others))
      else none
  | .unlock :: rest =>
      some ((m.dropLock call.cls).put t
        ({ call with rest := rest, released := call.released + 1 } :: others))
  | .set state :: rest => some ((m.setState call state).put t ({ call with rest := rest } :: others))
  | .stage state body :: rest =>
      some (m.put t
        ({ call with rest := if m.reaches call state then body ++ rest else rest } :: others))
  | .find :: rest => some (m.put t ({ call with rest := rest } :: others))
  | .circular :: rest =>
      if m.state call.cls = .doingPrepare then some (m.release t call others true)
      else some (m.put t ({ call with rest := rest } :: others))
  | .work _ :: rest => some (m.put t ({ call with rest := rest } :: others))
  | .process cls tostate :: rest =>
      some (m.enter files t cls tostate ({ call with rest := .await :: rest } :: others))
  | .await :: rest => some (m.put t ({ call with rest := rest } :: others))
  | .initFirst cls :: rest =>
      if m.state cls = .ok then some (m.put t ({ call with rest := rest } :: others))
      else some (m.enter files t cls .ok ({ call with rest := .await :: rest } :: others))
  | .checkFinal cls :: rest =>
      if files.isFinal cls then some (m.release t call others true)
      else some (m.put t ({ call with rest := rest } :: others))
  | .returnIfInit :: rest =>
      if m.state call.cls = .doingInit then some (m.release t call others false)
      else some (m.put t ({ call with rest := rest } :: others))

def working (call : Call Class) : Bool :=
  match call.rest with
  | .find :: _ | .work _ :: _ => true
  | _ => false

end Machine

inductive Event (Thread Class : Type) where
  | call (t : Thread) (cls : Class) (tostate : ClassState)
  | advance (t : Thread)
  | missing (t : Thread)
  | fail (t : Thread)
  | handle (t : Thread)

namespace Machine

variable {Thread Class : Type} [DecidableEq Thread] [DecidableEq Class]

def step (files : ClassFiles Class) (m : Machine Thread Class) :
    Event Thread Class → Option (Machine Thread Class)
  | .call t cls tostate =>
      match m.stack t with
      | [] => if m.raised t then none else some (m.enter files t cls tostate [])
      | call :: others =>
          if !m.raised t && working call then some (m.enter files t cls tostate (call :: others))
          else none
  | .advance t =>
      match m.stack t with
      | [] => none
      | call :: others => if m.raised t then none else m.advance files t call others
  | .missing t =>
      match m.stack t with
      | [] => none
      | call :: others =>
          match call.rest with
          | .find :: _ => if m.raised t then none else some (m.release t call others true)
          | _ => none
  | .fail t =>
      match m.stack t with
      | [] => none
      | call :: others =>
          if m.raised t || working call then some (m.leave t call others true) else none
  | .handle t =>
      match m.stack t with
      | [] => some { m with raised := Function.update m.raised t false }
      | call :: _ =>
          if working call then some { m with raised := Function.update m.raised t false }
          else none

structure Initial (m : Machine Thread Class) : Prop where
  state : ∀ cls, (m.state cls).inProgress = false
  stack : ∀ t, m.stack t = []
  ended : m.ended = []

end Machine

end LaTTe.Classes.Processing
