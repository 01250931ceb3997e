import LaTTe.Sparc.Word
import Mathlib.Logic.Function.Basic

namespace LaTTe.Sparc

/-! Memory of bytes, the most significant byte of a word first. -/

inductive Width where
  | ub | sb | uh | sh | w
  deriving DecidableEq, Repr

abbrev Memory := Word → BitVec 8

namespace Memory

def half (mem : Memory) (address : Word) : BitVec 16 :=
  mem address ++ mem (address + 1)

def word (mem : Memory) (address : Word) : Word :=
  mem.half address ++ mem.half (address + 2)

def double (mem : Memory) (address : Word) : BitVec 64 :=
  pair (mem.word address) (mem.word (address + 4))

def load (mem : Memory) (address : Word) : Width → Word
  | .ub => (mem address).setWidth 32
  | .sb => (mem address).signExtend 32
  | .uh => (mem.half address).setWidth 32
  | .sh => (mem.half address).signExtend 32
  | .w => mem.word address

def storeByte (mem : Memory) (address : Word) (value : BitVec 8) : Memory :=
  Function.update mem address value

def storeHalf (mem : Memory) (address : Word) (value : BitVec 16) : Memory :=
  (mem.storeByte address (value.extractLsb' 8 8)).storeByte (address + 1) (value.setWidth 8)

def storeWord (mem : Memory) (address : Word) (value : Word) : Memory :=
  (mem.storeHalf address (value.extractLsb' 16 16)).storeHalf (address + 2) (value.setWidth 16)

def storeDouble (mem : Memory) (address : Word) (value : BitVec 64) : Memory :=
  (mem.storeWord address (high value)).storeWord (address + 4) (low value)

def store (mem : Memory) (address : Word) (value : Word) : Width → Memory
  | .ub | .sb => mem.storeByte address (value.setWidth 8)
  | .uh | .sh => mem.storeHalf address (value.setWidth 16)
  | .w => mem.storeWord address value

section Halves

variable (mem : Memory) (a b : Word) (value other : BitVec 16)

theorem half_storeHalf : (mem.storeHalf a value).half a = value := by
  have apart : a ≠ a + 1 := by bv_omega
  simp only [half, storeHalf, storeByte, Function.update_self, ne_eq, apart, not_false_eq_true,
    Function.update_of_ne]
  exact BitVec.extractLsb'_append_extractLsb'

theorem half_storeHalf_of_ne (same : b ≠ a) (behind : b ≠ a + 1) (before : b + 1 ≠ a) :
    (mem.storeHalf a value).half b = mem.half b := by
  have behind' : b + 1 ≠ a + 1 := by bv_omega
  rw [half, storeHalf, storeByte, storeByte, Function.update_of_ne behind,
    Function.update_of_ne same, Function.update_of_ne behind', Function.update_of_ne before, half]

theorem storeHalf_comm (same : b ≠ a) (behind : b ≠ a + 1) (before : b + 1 ≠ a) :
    (mem.storeHalf a value).storeHalf b other = (mem.storeHalf b other).storeHalf a value := by
  have behind' : b + 1 ≠ a + 1 := by bv_omega
  funext address
  simp only [storeHalf, storeByte, Function.update_apply]
  grind

end Halves

end Memory

end LaTTe.Sparc

