import Mathlib.Data.BitVec
import Mathlib.Tactic.Ring

namespace LaTTe.Sparc

/-! Integer words of SPARC V8, their condition codes, and pairs of words. -/

abbrev Word := BitVec 32

structure Icc where
  negative : Bool
  zero : Bool
  overflow : Bool
  carry : Bool
  deriving DecidableEq, Repr

def bit : Bool → Word
  | false => 0
  | true => 1

theorem toNat_bit (carry : Bool) : (bit carry).toNat = carry.toNat := by
  cases carry <;> rfl

@[simp] theorem bit_false : bit false = 0 := rfl

namespace Icc

def add (a b : Word) (carry : Bool) : Icc where
  negative := (a + b + bit carry).msb
  zero := a + b + bit carry = 0
  overflow := a.toInt + b.toInt + carry.toInt ≥ 2 ^ 31 ∨
    a.toInt + b.toInt + carry.toInt < -2 ^ 31
  carry := 2 ^ 32 ≤ a.toNat + b.toNat + carry.toNat

def sub (a b : Word) (carry : Bool) : Icc where
  negative := (a - b - bit carry).msb
  zero := a - b - bit carry = 0
  overflow := a.toInt - b.toInt - carry.toInt ≥ 2 ^ 31 ∨
    a.toInt - b.toInt - carry.toInt < -2 ^ 31
  carry := a.toNat < b.toNat + carry.toNat

def logic (result : Word) : Icc where
  negative := result.msb
  zero := result = 0
  overflow := false
  carry := false

end Icc

inductive Cond where
  | a | n | ne | e | g | le | ge | l | gu | leu | cc | cs | pos | neg | vc | vs
  deriving DecidableEq, Repr

namespace Cond

def holds (icc : Icc) : Cond → Bool
  | a => true
  | n => false
  | ne => !icc.zero
  | e => icc.zero
  | g => !(icc.zero || (icc.negative ^^ icc.overflow))
  | le => icc.zero || (icc.negative ^^ icc.overflow)
  | ge => !(icc.negative ^^ icc.overflow)
  | l => icc.negative ^^ icc.overflow
  | gu => !(icc.carry || icc.zero)
  | leu => icc.carry || icc.zero
  | cc => !icc.carry
  | cs => icc.carry
  | pos => !icc.negative
  | neg => icc.negative
  | vc => !icc.overflow
  | vs => icc.overflow

variable (x y : Word)

theorem zero_sub : (Icc.sub x y false).zero = decide (x = y) := by
  have same : x - y = 0 ↔ x = y := sub_eq_zero
  simpa [Icc.sub] using same

theorem carry_sub : (Icc.sub x y false).carry = decide (x < y) := by
  simp [Icc.sub, BitVec.lt_def]

theorem less_sub :
    ((Icc.sub x y false).negative ^^ (Icc.sub x y false).overflow) = x.slt y := by
  have low := BitVec.le_toInt x
  have high := BitVec.toInt_lt (x := x)
  have low' := BitVec.le_toInt y
  have high' := BitVec.toInt_lt (x := y)
  have negative : (Icc.sub x y false).negative = decide ((x - y).toInt < 0) := by
    simp [Icc.sub, BitVec.msb_eq_toInt]
  have overflow : (Icc.sub x y false).overflow =
      decide (x.toInt - y.toInt ≥ 2 ^ 31 ∨ x.toInt - y.toInt < -2 ^ 31) := by
    simp [Icc.sub]
  rw [negative, overflow, BitVec.slt_eq_decide, BitVec.toInt_sub, Int.bmod_def]
  grind

theorem holds_e : holds (Icc.sub x y false) e = decide (x = y) :=
  zero_sub x y

theorem holds_ne : holds (Icc.sub x y false) ne = decide (x ≠ y) := by
  simp [holds, zero_sub]

theorem holds_l : holds (Icc.sub x y false) l = x.slt y :=
  less_sub x y

theorem holds_le : holds (Icc.sub x y false) le = x.sle y := by
  rw [holds, less_sub, zero_sub, BitVec.sle_eq_slt_or_eq, Bool.or_comm]
  rfl

theorem holds_g : holds (Icc.sub x y false) g = y.slt x := by
  have opposite : holds (Icc.sub x y false) g = !holds (Icc.sub x y false) le := rfl
  rw [opposite, holds_le, BitVec.sle_eq_not_slt, Bool.not_not]

theorem holds_cs : holds (Icc.sub x y false) cs = decide (x < y) :=
  carry_sub x y

theorem holds_leu : holds (Icc.sub x y false) leu = decide (x ≤ y) := by
  rw [holds, carry_sub, zero_sub, ← Bool.decide_or]
  refine decide_eq_decide.mpr ?_
  rw [BitVec.lt_def, BitVec.le_def, ← BitVec.toNat_inj]
  exact Nat.le_iff_lt_or_eq.symm

theorem holds_gu : holds (Icc.sub x y false) gu = decide (y < x) := by
  have opposite : holds (Icc.sub x y false) gu = !holds (Icc.sub x y false) leu := rfl
  rw [opposite, holds_leu, ← decide_not]
  exact decide_eq_decide.mpr BitVec.not_le

end Cond

/-! Pairs of words. -/

def pair (high low : Word) : BitVec 64 := high ++ low

variable (h l h' l' : Word)

theorem toNat_pair : (pair h l).toNat = h.toNat * 2 ^ 32 + l.toNat := by
  rw [pair, BitVec.toNat_append, ← Nat.shiftLeft_add_eq_or_of_lt l.isLt, Nat.shiftLeft_eq]

theorem toInt_pair : (pair h l).toInt = h.toInt * 2 ^ 32 + l.toNat := by
  have low := l.isLt
  have high := h.isLt
  rw [BitVec.toInt_eq_toNat_cond, BitVec.toInt_eq_toNat_cond, toNat_pair]
  grind

theorem add_pair :
    pair h l + pair h' l' =
      pair (h + h' + bit (Icc.add l l' false).carry) (l + l') := by
  apply BitVec.eq_of_toNat_eq
  have low := l.isLt
  have low' := l'.isLt
  have carry : (Icc.add l l' false).carry = decide (2 ^ 32 ≤ l.toNat + l'.toNat) := rfl
  simp only [BitVec.toNat_add, toNat_pair, toNat_bit, carry]
  by_cases wraps : 2 ^ 32 ≤ l.toNat + l'.toNat
  · simp only [wraps, decide_true, Bool.toNat_true]
    omega
  · simp only [wraps, decide_false, Bool.toNat_false]
    omega

theorem sub_pair :
    pair h l - pair h' l' =
      pair (h - h' - bit (Icc.sub l l' false).carry) (l - l') := by
  apply BitVec.eq_of_toNat_eq
  have low := l.isLt
  have low' := l'.isLt
  have high := h.isLt
  have high' := h'.isLt
  have carry : (Icc.sub l l' false).carry = decide (l.toNat < l'.toNat) := rfl
  simp only [BitVec.toNat_sub, toNat_pair, toNat_bit, carry]
  by_cases borrows : l.toNat < l'.toNat
  · simp only [borrows, decide_true, Bool.toNat_true]
    omega
  · simp only [borrows, decide_false, Bool.toNat_false]
    omega

def product (a b : Word) : BitVec 64 := a.setWidth 64 * b.setWidth 64

def signedProduct (a b : Word) : BitVec 64 := a.signExtend 64 * b.signExtend 64

def high (value : BitVec 64) : Word := value.extractLsb' 32 32

def low (value : BitVec 64) : Word := value.setWidth 32

theorem toNat_high (value : BitVec 64) : (high value).toNat = value.toNat / 2 ^ 32 := by
  have bound := value.isLt
  rw [high, BitVec.extractLsb'_toNat, Nat.shiftRight_eq_div_pow]
  omega

theorem toNat_product (a b : Word) : (product a b).toNat = a.toNat * b.toNat := by
  have bound : a.toNat * b.toNat < 2 ^ 32 * 2 ^ 32 := Nat.mul_lt_mul'' a.isLt b.isLt
  have left : (a.setWidth 64).toNat = a.toNat := BitVec.toNat_setWidth_of_le (by decide)
  have right : (b.setWidth 64).toNat = b.toNat := BitVec.toNat_setWidth_of_le (by decide)
  rw [product, BitVec.toNat_mul, left, right]
  exact Nat.mod_eq_of_lt bound

theorem low_product (a b : Word) : low (product a b) = a * b := by
  rw [low, product, BitVec.setWidth_mul _ _ (by decide)]
  rw [BitVec.setWidth_setWidth_of_le _ (by decide), BitVec.setWidth_setWidth_of_le _ (by decide)]
  rw [BitVec.setWidth_eq, BitVec.setWidth_eq]

theorem low_signedProduct (a b : Word) : low (signedProduct a b) = a * b := by
  have extended (c : Word) : (c.signExtend 64).setWidth 32 = c := by
    rw [← BitVec.signExtend_eq_setWidth_of_le _ (by decide)]
    apply BitVec.eq_of_toInt_eq
    rw [BitVec.toInt_signExtend, BitVec.toInt_signExtend_of_le (by decide)]
    exact BitVec.toInt_bmod_cancel c
  rw [low, signedProduct, BitVec.setWidth_mul _ _ (by decide), extended, extended]

theorem mul_pair :
    pair h l * pair h' l' =
      pair (high (product l l') + l * h' + l' * h) (low (product l l')) := by
  apply BitVec.eq_of_toNat_eq
  have expand : (h.toNat * 2 ^ 32 + l.toNat) * (h'.toNat * 2 ^ 32 + l'.toNat) =
      h.toNat * h'.toNat * 2 ^ 64 +
        (l.toNat * h'.toNat + l'.toNat * h.toNat) * 2 ^ 32 + l.toNat * l'.toNat := by
    ring
  simp only [BitVec.toNat_mul, BitVec.toNat_add, toNat_pair, toNat_high, low,
    BitVec.toNat_setWidth, toNat_product, expand]
  omega

theorem slt_pair :
    (pair h l).slt (pair h' l') = (h.slt h' || (decide (h = h') && decide (l < l'))) := by
  have low := l.isLt
  have low' := l'.isLt
  have same : h = h' ↔ h.toInt = h'.toInt := BitVec.toInt_inj.symm
  rw [BitVec.slt_eq_decide, BitVec.slt_eq_decide, toInt_pair, toInt_pair, Bool.eq_iff_iff]
  simp only [decide_eq_true_eq, Bool.or_eq_true, Bool.and_eq_true, same, BitVec.lt_def]
  omega

end LaTTe.Sparc
