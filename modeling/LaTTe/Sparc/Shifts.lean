import LaTTe.Sparc.Machine

namespace LaTTe.Sparc

/-! Shifts of 64 bits, seen in the lower word. -/

section Pairs

variable (h l : Word)

theorem getLsbD_pair (i : Nat) :
    (pair h l).getLsbD i = if i < 32 then l.getLsbD i else h.getLsbD (i - 32) :=
  BitVec.getLsbD_append

theorem low_shiftLeft {n : Nat} (small : n < 32) : low (pair h l <<< n) = l <<< n := by
  apply BitVec.eq_of_getLsbD_eq
  intro i inside
  have below : i - n < 32 := by omega
  have inside' : i < 64 := by omega
  simp only [low, BitVec.getLsbD_setWidth, BitVec.getLsbD_shiftLeft, getLsbD_pair, inside, inside',
    if_pos below, decide_true, Bool.true_and]

theorem low_shiftLeft_eq_zero {n : Nat} (large : 32 ≤ n) : low (pair h l <<< n) = 0 := by
  apply BitVec.eq_of_getLsbD_eq
  intro i inside
  have below : i < n := by omega
  simp [low, BitVec.getLsbD_shiftLeft, below]

theorem low_pair : low (pair h l) = l := by
  apply BitVec.eq_of_getLsbD_eq
  intro i inside
  simp only [low, BitVec.getLsbD_setWidth, getLsbD_pair, inside, if_pos, decide_true, Bool.true_and]

end Pairs

namespace Op

variable {op : Op} (upper a b : Word)

theorem long_sll : sll.long upper a b = if b.toNat % 64 < 32 then a <<< shiftCount b else 0 := by
  split
  next small =>
    have count : b.toNat % 64 = shiftCount b := by
      unfold shiftCount
      omega
    rw [long, count]
    exact low_shiftLeft upper a (count ▸ small)
  next large => exact low_shiftLeft_eq_zero upper a (by omega)

theorem long_of_count_eq_zero (shifts : op.shifts = true) (none : b.toNat % 64 = 0)
    (carry : Bool) (y : Word) : op.long upper a b = op.result a b carry y := by
  have none' : shiftCount b = 0 := by
    unfold shiftCount
    omega
  cases op with
  | sll | srl | sra => simp [long, result, none, none', low_pair]
  | _ => contradiction

theorem long_of_eq_zero (shifts : op.shifts = true) (carry : Bool) (y : Word) :
    op.long 0 0 b = op.result 0 b carry y := by
  have zero : pair 0 0 = 0 := rfl
  cases op with
  | sll =>
      rw [long, result, zero]
      exact (congrArg low (BitVec.zero_shiftLeft _)).trans (BitVec.zero_shiftLeft _).symm
  | srl =>
      rw [long, result, zero]
      exact congrArg low BitVec.zero_ushiftRight |>.trans BitVec.zero_ushiftRight.symm
  | sra =>
      rw [long, result, zero]
      exact congrArg low BitVec.zero_sshiftRight |>.trans BitVec.zero_sshiftRight.symm
  | _ => contradiction

theorem getLsbD_long {i : Nat} (right : op = srl ∨ op = sra) (inside : b.toNat % 64 + i < 64)
    (low_bit : i < 32) :
    (op.long upper a b).getLsbD i = (pair upper a).getLsbD (b.toNat % 64 + i) := by
  have inside' : ¬ 64 ≤ i := by omega
  rcases right with rfl | rfl
  · simp only [long, low, BitVec.getLsbD_setWidth, BitVec.getLsbD_ushiftRight, low_bit, decide_true,
      Bool.true_and]
  · simp only [long, low, BitVec.getLsbD_setWidth, BitVec.getLsbD_sshiftRight, low_bit, inside,
      inside', decide_true, decide_false, Bool.true_and, Bool.not_false, if_true]

theorem getLsbD_zero_result (right : op = srl ∨ op = sra) (carry : Bool) (y : Word) :
    (op.result a b carry y).getLsbD 0 = a.getLsbD (shiftCount b) := by
  have inside : shiftCount b < 32 := Nat.mod_lt _ (by decide)
  rcases right with rfl | rfl
  · rw [result, BitVec.getLsbD_ushiftRight, Nat.add_zero]
  · simp only [result, BitVec.getLsbD_sshiftRight, Nat.add_zero, inside, if_true]
    rfl

/-- What is shifted in from the upper half can be seen. -/
theorem exists_long_ne (right : op = srl ∨ op = sra) (count : b.toNat % 64 ≠ 0) (carry : Bool)
    (y : Word) : ∃ upper, op.long upper a b ≠ op.result a b carry y := by
  rcases Nat.lt_or_ge (b.toNat % 64) 32 with small | large
  · let top := (op.result a b carry y).getLsbD 31
    let upper : Word := if top then 0 else BitVec.allOnes 32
    have other : upper.getLsbD (b.toNat % 64 - 1) = !top := by
      have inside : b.toNat % 64 - 1 < 32 := by omega
      cases negative : top with
      | true => simp [upper, negative]
      | false =>
          simp only [upper, negative, Bool.false_eq_true, if_false, BitVec.getLsbD_allOnes, inside,
            decide_true, Bool.not_false]
    refine ⟨upper, fun same => (Bool.not_eq_self top).mp ?_⟩
    have above : ¬ b.toNat % 64 + 31 < 32 := by omega
    have index : b.toNat % 64 + 31 - 32 = b.toNat % 64 - 1 := by omega
    have sign := getLsbD_long upper a b right (by omega) (by decide : 31 < 32)
    rw [same, getLsbD_pair, if_neg above, index, other] at sign
    exact sign.symm
  · have wrapped : shiftCount b = b.toNat % 64 - 32 := by
      unfold shiftCount
      omega
    have inside : b.toNat % 64 - 32 < 32 := by omega
    refine ⟨~~~a, fun same => ?_⟩
    have bit := congrArg (BitVec.getLsbD · 0) same
    simp only [getLsbD_zero_result a b right, wrapped,
      getLsbD_long (~~~a) a b right (by omega) (by decide : 0 < 32), Nat.add_zero, getLsbD_pair,
      if_neg (Nat.not_lt.mpr large), BitVec.getLsbD_not, inside, decide_true, Bool.true_and] at bit
    exact (Bool.not_eq_self _).mp bit

end Op
end LaTTe.Sparc
