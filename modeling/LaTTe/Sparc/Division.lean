import LaTTe.Sparc.Machine

namespace LaTTe.Sparc

/-! The signed division of a word, extended to two words by its sign. -/

def sign (a : Word) : Word := a.sshiftRight 31

theorem toInt_sign (a : Word) : (sign a).toInt = if a.toInt < 0 then -1 else 0 := by
  have low := BitVec.le_toInt a
  have high := BitVec.toInt_lt (x := a)
  rw [sign, BitVec.toInt_sshiftRight, Int.shiftRight_eq_div_pow]
  split <;> omega

theorem toInt_pair_sign (a : Word) : (pair (sign a) a).toInt = a.toInt := by
  rw [toInt_pair, toInt_sign, BitVec.toInt_eq_toNat_cond]
  split <;> split <;> omega

theorem sdivide_sign (a b : Word) :
    sdivide (sign a) a b =
      if 2 ^ 31 ≤ a.toInt.tdiv b.toInt then BitVec.intMax 32
      else if a.toInt.tdiv b.toInt < -2 ^ 31 then BitVec.intMin 32
      else BitVec.ofInt 32 (a.toInt.tdiv b.toInt) := by
  rw [sdivide, toInt_pair_sign]

theorem sdivide_sign_eq_sdiv {a b : Word} (fits : a ≠ BitVec.intMin 32 ∨ b ≠ -1) :
    sdivide (sign a) a b = a.sdiv b := by
  have quotient := BitVec.toInt_sdiv_of_ne_or_ne a b fits
  have low := BitVec.le_toInt (a.sdiv b)
  have high := BitVec.toInt_lt (x := a.sdiv b)
  rw [sdivide_sign, ← quotient, if_neg (by omega), if_neg (by omega), BitVec.ofInt_toInt]

theorem sdivide_sign_intMin :
    sdivide (sign (BitVec.intMin 32)) (BitVec.intMin 32) (-1) = BitVec.intMax 32 := by
  decide

theorem ofInt_tdiv (a b : Word) : BitVec.ofInt 32 (a.toInt.tdiv b.toInt) = a.sdiv b := by
  apply BitVec.eq_of_toInt_eq
  rw [BitVec.toInt_ofInt, BitVec.toInt_sdiv]

theorem ofInt_tmod (a b : Word) : BitVec.ofInt 32 (a.toInt.tmod b.toInt) = a - a.sdiv b * b := by
  rw [Int.tmod_def, Int.sub_eq_add_neg, ← Int.mul_neg, BitVec.ofInt_add, BitVec.ofInt_mul,
    BitVec.ofInt_neg, ofInt_tdiv, BitVec.ofInt_toInt, BitVec.ofInt_toInt, BitVec.mul_neg,
    BitVec.mul_comm b, ← BitVec.sub_eq_add_neg]

theorem sshiftRight_add_ushiftRight (a : Word) : (a + a >>> 31).sshiftRight 1 = a.sdiv 2 := by
  have quotient := BitVec.toInt_sdiv_of_ne_or_ne a 2 (.inr (by decide))
  have two : (2 : Word).toInt = 2 := rfl
  have low := BitVec.le_toInt a
  have high := BitVec.toInt_lt (x := a)
  have correction : (a >>> 31).toInt = if a.toInt < 0 then 1 else 0 := by
    have bit : (a >>> 31).toNat = a.toNat / 2 ^ 31 := by
      rw [BitVec.toNat_ushiftRight, Nat.shiftRight_eq_div_pow]
    have bound := a.isLt
    have value := BitVec.toInt_eq_toNat_cond a
    rw [BitVec.toInt_eq_toNat_cond, bit]
    grind
  have rounded : (a.toInt + if a.toInt < 0 then 1 else 0) / 2 = a.toInt.tdiv 2 := by
    rw [Int.tdiv_eq_ediv]
    grind
  apply BitVec.eq_of_toInt_eq
  rw [quotient, two, BitVec.toInt_sshiftRight, BitVec.toInt_add, correction,
    Int.shiftRight_eq_div_pow, ← rounded, Int.bmod_eq_of_le (by split <;> omega)
      (by split <;> omega)]
  rfl

end LaTTe.Sparc
