import LaTTe.Data.Memory
import Mathlib.Data.Nat.Bitwise
import Mathlib.Tactic.IntervalCases

namespace LaTTe.Gc

open LaTTe.Data

def gcHead : Nat := 4

def memAlign : Nat := 8

def gcBlockSize : Nat := 4096

def gcRegionSize : Nat := 2 * 1024 * 1024

inductive Flag where
  | mark
  | free
  | prev
  deriving DecidableEq, Repr

/-- `MARK_BIT`, `FREE_BIT` and `PREV_BIT`. -/
def Flag.bit : Flag → Nat
  | .mark => 1
  | .free => 2
  | .prev => 4

/-- `word & flag`. -/
def hasFlag (word : Nat) (flag : Flag) : Bool :=
  word &&& flag.bit != 0

/-- `word | flag`. -/
def setFlag (word : Nat) (flag : Flag) : Nat :=
  word ||| flag.bit

/-- `word & ~flag`. -/
def clearFlag (word : Nat) (flag : Flag) : Nat :=
  word - (word &&& flag.bit)

/-- `word & ~SIZE_MASK`. -/
def flagBits (word : Nat) : Nat :=
  word &&& 7

/-- `word & SIZE_MASK`. -/
def maskSize (word : Nat) : Nat :=
  word - flagBits word

/-- `HEADER(p)`: the address of the preheader. -/
def header (p : Nat) : Nat :=
  p - gcHead

/-- `SIZE(p)`. -/
def size (memory : Memory) (p : Nat) : Nat :=
  maskSize (memory (header p))

theorem header_add (head : Nat) : header (head + gcHead) = head :=
  Nat.add_sub_cancel _ _

theorem flagBits_eq (word : Nat) : flagBits word = word % 8 :=
  Nat.and_two_pow_sub_one_eq_mod word 3

theorem maskSize_eq (word : Nat) : maskSize word = 8 * (word / 8) := by
  rw [maskSize, flagBits_eq]
  omega

private theorem Flag.bit_lt (flag : Flag) : flag.bit < 8 := by
  cases flag <;> decide

private theorem and_bit_mod (word : Nat) (flag : Flag) :
    word &&& flag.bit = (word % 8) &&& flag.bit := by
  have folded := Nat.and_mod_two_pow (a := word) (b := flag.bit) (n := 3)
  have small : word &&& flag.bit < 8 :=
    Nat.lt_of_le_of_lt Nat.and_le_right flag.bit_lt
  rwa [Nat.mod_eq_of_lt small, Nat.mod_eq_of_lt flag.bit_lt] at folded

theorem hasFlag_mod (word : Nat) (flag : Flag) :
    hasFlag word flag = hasFlag (word % 8) flag := by
  rw [hasFlag, hasFlag, and_bit_mod]

theorem setFlag_div (word : Nat) (flag : Flag) :
    setFlag word flag / 8 = word / 8 := by
  have split := Nat.or_div_two_pow (a := word) (b := flag.bit) (n := 3)
  rw [setFlag]
  simpa [Nat.div_eq_of_lt flag.bit_lt] using split

theorem setFlag_mod (word : Nat) (flag : Flag) :
    setFlag word flag % 8 = setFlag (word % 8) flag := by
  have split := Nat.or_mod_two_pow (a := word) (b := flag.bit) (n := 3)
  rw [setFlag, setFlag]
  simpa [Nat.mod_eq_of_lt flag.bit_lt] using split

theorem clearFlag_div (word : Nat) (flag : Flag) :
    clearFlag word flag / 8 = word / 8 := by
  have low := and_bit_mod word flag
  have bound : (word % 8) &&& flag.bit ≤ word % 8 := Nat.and_le_left
  rw [clearFlag, low]
  omega

theorem clearFlag_mod (word : Nat) (flag : Flag) :
    clearFlag word flag % 8 = clearFlag (word % 8) flag := by
  have low := and_bit_mod word flag
  have bound : (word % 8) &&& flag.bit ≤ word % 8 := Nat.and_le_left
  rw [clearFlag, clearFlag, low]
  omega

@[simp] theorem maskSize_setFlag (word : Nat) (flag : Flag) :
    maskSize (setFlag word flag) = maskSize word := by
  rw [maskSize_eq, maskSize_eq, setFlag_div]

@[simp] theorem maskSize_clearFlag (word : Nat) (flag : Flag) :
    maskSize (clearFlag word flag) = maskSize word := by
  rw [maskSize_eq, maskSize_eq, clearFlag_div]

@[simp] theorem hasFlag_setFlag (word : Nat) (changed asked : Flag) :
    hasFlag (setFlag word changed) asked =
      (hasFlag word asked || decide (changed = asked)) := by
  rw [hasFlag_mod, setFlag_mod, hasFlag_mod word]
  have bound : word % 8 < 8 := Nat.mod_lt _ (by decide)
  generalize word % 8 = low at bound
  cases changed <;> cases asked <;> interval_cases low <;> rfl

@[simp] theorem hasFlag_clearFlag (word : Nat) (changed asked : Flag) :
    hasFlag (clearFlag word changed) asked =
      (hasFlag word asked && decide (changed ≠ asked)) := by
  rw [hasFlag_mod, clearFlag_mod, hasFlag_mod word]
  have bound : word % 8 < 8 := Nat.mod_lt _ (by decide)
  generalize word % 8 = low at bound
  cases changed <;> cases asked <;> interval_cases low <;> rfl

theorem mark_setFlag_prev (word : Nat) :
    hasFlag (setFlag word .prev) .mark = hasFlag word .mark := by
  simp

theorem mark_clearFlag_prev (word : Nat) :
    hasFlag (clearFlag word .prev) .mark = hasFlag word .mark := by
  simp

private theorem or_flagBits {size : Nat} (word : Nat) (aligned : size % 8 = 0) :
    size ||| flagBits word = 8 * (size / 8) + word % 8 := by
  have split := Nat.two_pow_add_eq_or_of_lt (b := word % 8) (i := 3)
    (Nat.mod_lt _ (by decide)) (size / 8)
  rw [flagBits_eq, show size = 2 ^ 3 * (size / 8) by omega, ← split]
  omega

theorem maskSize_or_flagBits {size : Nat} (word : Nat) (aligned : size % 8 = 0) :
    maskSize (size ||| flagBits word) = size := by
  rw [maskSize_eq, or_flagBits word aligned]
  omega

theorem hasFlag_or_flagBits {size : Nat} (word : Nat) (flag : Flag)
    (aligned : size % 8 = 0) :
    hasFlag (size ||| flagBits word) flag = hasFlag word flag := by
  rw [hasFlag_mod, or_flagBits word aligned, hasFlag_mod word]
  congr 1
  omega

theorem maskSize_of_aligned {size : Nat} (aligned : size % 8 = 0) :
    maskSize size = size := by
  rw [maskSize_eq]
  omega

theorem hasFlag_of_aligned {size : Nat} (flag : Flag) (aligned : size % 8 = 0) :
    hasFlag size flag = false := by
  rw [hasFlag_mod, aligned]
  cases flag <;> rfl

theorem clearFlag_setFlag_of_aligned {size : Nat} (flag : Flag) (aligned : size % 8 = 0) :
    clearFlag (setFlag size flag) flag = size := by
  have high : clearFlag (setFlag size flag) flag / 8 = size / 8 := by
    rw [clearFlag_div, setFlag_div]
  have low : clearFlag (setFlag size flag) flag % 8 = 0 := by
    rw [clearFlag_mod, setFlag_mod, aligned]
    cases flag <;> rfl
  omega

end LaTTe.Gc
