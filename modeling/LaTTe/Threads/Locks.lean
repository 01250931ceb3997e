import LaTTe.Sparc.Machine

namespace LaTTe.Threads.Locks

open LaTTe.Sparc
open LaTTe.Data (loopUntil)

/-! The locks of the runtime.  `lock_info` of an object holds the semaphore in bits 31 to 17,
`has_waiters` in bit 16 and the owner's id below. -/

inductive Function where
  | waitInQueue | wakeupWaiter
  deriving DecidableEq, Repr

inductive Exception where
  | nullPointer | arrayIndexOutOfBounds | negativeArraySize | arrayStore | classCast
  | illegalMonitorState
  deriving DecidableEq, Repr

def ownerIdMask : Word := 0xffff

def semaphoreMask : Word := 0xfffe0000

structure World where
  mem : Memory
  calls : Calls Function

inductive Result where
  | returned (world : World)
  | threw (exception : Exception) (world : World)

def lockInfo (mem : Memory) (obj : Word) : Word := mem.word (obj + 4)

/-- `*(unsigned short*) &obj->lock_info`. -/
def semaphore (mem : Memory) (obj : Word) : BitVec 16 := mem.half (obj + 4)

def setSemaphore (mem : Memory) (obj : Word) (value : BitVec 16) : Memory :=
  mem.storeHalf (obj + 4) value

/-- `*((unsigned short*) &obj->lock_info + 1)`. -/
def setOwner (mem : Memory) (obj : Word) (value : BitVec 16) : Memory :=
  mem.storeHalf (obj + 6) value

variable (currentThreadID : Word) (environment : Environment Function)

def World.call (function : Function) (obj : Word) (world : World) : World :=
  let calls := (function, [obj]) :: world.calls
  ⟨(environment calls world.mem).mem, calls⟩

/-- One round of `_lockMutex`; the variable `currentThreadID` is at that address. -/
def lockMutexRound (obj : Word) (world : World) : World ⊕ Result :=
  let current := world.mem.half currentThreadID
  if lockInfo world.mem obj &&& semaphoreMask = 0 then
    let mem := setOwner world.mem obj current
    .inr (.returned ⟨setSemaphore mem obj (semaphore mem obj + 2), world.calls⟩)
  else if lockInfo world.mem obj &&& ownerIdMask = current.setWidth 32 then
    .inr (.returned
      ⟨setSemaphore world.mem obj (semaphore world.mem obj + 2), world.calls⟩)
  else
    .inl (world.call environment .waitInQueue obj)

def lockMutex (obj : Word) (rounds : Nat) (world : World) : Option Result :=
  loopUntil (lockMutexRound currentThreadID environment obj) rounds world

def unlockMutex (obj : Word) (world : World) : Result :=
  if 2 ≤ semaphore world.mem obj then
    let released : World :=
      ⟨setSemaphore world.mem obj (semaphore world.mem obj - 2), world.calls⟩
    if lockInfo released.mem obj >>> 16 ≠ 1 then
      .returned released
    else
      .returned (released.call environment .wakeupWaiter obj)
  else
    .threw .illegalMonitorState world

/-! What the parts of `lock_info` say. -/

variable (mem : Memory) (obj : Word)

theorem lockInfo_eq : lockInfo mem obj = mem.half (obj + 4) ++ mem.half (obj + 6) := by
  have address : obj + 4 + 2 = obj + 6 := by bv_omega
  rw [lockInfo, Memory.word, address]

theorem toNat_lockInfo :
    (lockInfo mem obj).toNat = (semaphore mem obj).toNat * 2 ^ 16 + (mem.half (obj + 6)).toNat := by
  have low := (mem.half (obj + 6)).isLt
  rw [lockInfo_eq, BitVec.toNat_append, ← Nat.shiftLeft_add_eq_or_of_lt low, Nat.shiftLeft_eq,
    semaphore]

theorem free_iff : lockInfo mem obj &&& semaphoreMask = 0 ↔ semaphore mem obj < 2 := by
  have mask : semaphoreMask = BitVec.allOnes 32 <<< 17 := by decide
  have value := toNat_lockInfo mem obj
  have low := (mem.half (obj + 6)).isLt
  have high := (semaphore mem obj).isLt
  rw [mask, ← BitVec.shiftLeft_ushiftRight, ← BitVec.toNat_inj, BitVec.toNat_shiftLeft,
    BitVec.toNat_ushiftRight, Nat.shiftRight_eq_div_pow, Nat.shiftLeft_eq, BitVec.lt_def]
  have zero : (0 : Word).toNat = 0 := rfl
  have two : (2 : BitVec 16).toNat = 2 := rfl
  omega

theorem owner_eq : lockInfo mem obj &&& ownerIdMask = (mem.half (obj + 6)).setWidth 32 := by
  have value := toNat_lockInfo mem obj
  have low := (mem.half (obj + 6)).isLt
  have mask : ownerIdMask.toNat = 2 ^ 16 - 1 := by decide
  apply BitVec.eq_of_toNat_eq
  rw [BitVec.toNat_and, mask, Nat.and_two_pow_sub_one_eq_mod, BitVec.toNat_setWidth]
  omega

theorem waiters_iff : lockInfo mem obj >>> 16 = 1 ↔ semaphore mem obj = 1 := by
  have value := toNat_lockInfo mem obj
  have low := (mem.half (obj + 6)).isLt
  rw [← BitVec.toNat_inj, ← BitVec.toNat_inj, BitVec.toNat_ushiftRight,
    Nat.shiftRight_eq_div_pow]
  have one : (1 : Word).toNat = 1 := rfl
  have one' : (1 : BitVec 16).toNat = 1 := rfl
  omega

theorem setSemaphore_setOwner (value owner : BitVec 16) :
    setSemaphore (setOwner mem obj owner) obj value =
      setOwner (setSemaphore mem obj value) obj owner :=
  Memory.storeHalf_comm _ _ _ _ _ (by bv_omega) (by bv_omega) (by bv_omega)

theorem semaphore_setOwner (owner : BitVec 16) :
    semaphore (setOwner mem obj owner) obj = semaphore mem obj :=
  Memory.half_storeHalf_of_ne _ _ _ _ (by bv_omega) (by bv_omega) (by bv_omega)

theorem semaphore_setSemaphore (value : BitVec 16) :
    semaphore (setSemaphore mem obj value) obj = value :=
  Memory.half_storeHalf _ _ _

end LaTTe.Threads.Locks
