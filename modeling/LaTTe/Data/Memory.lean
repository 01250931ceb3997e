import Mathlib.Logic.Function.Basic

namespace LaTTe.Data

/-! Word-addressed memory.  A cell is named by the byte address of its first
byte; only aligned addresses are ever used. -/

abbrev Memory := Nat → Nat

namespace Memory

def store (memory : Memory) (address : Nat) (value : Nat) : Memory :=
  fun other => if other = address then value else memory other

@[simp] theorem store_same (memory : Memory) (address : Nat) (value : Nat) :
    memory.store address value address = value := by
  simp [store]

theorem store_other (memory : Memory) {address other : Nat} (value : Nat)
    (different : other ≠ address) :
    memory.store address value other = memory other := by
  simp [store, different]

end Memory

end LaTTe.Data
