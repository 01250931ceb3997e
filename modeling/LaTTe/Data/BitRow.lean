import Mathlib.Data.List.Basic

namespace LaTTe.Data

/-! Bits in an array of words, counted from the most significant one. -/

abbrev BitRow := List (BitVec 32)

namespace BitRow

def mask (i : Nat) : BitVec 32 :=
  1#32 <<< (31 - i % 32)

def set (row : BitRow) (i : Nat) : BitRow :=
  row.modify (i / 32) (· ||| mask i)

def test (row : BitRow) (i : Nat) : Bool :=
  row.getD (i / 32) 0 &&& mask i != 0

def or (row other : BitRow) : BitRow :=
  List.zipWith (· ||| ·) row other

/-- Byte `k` of the row in a memory whose words start with the most significant byte. -/
def byte (row : BitRow) (k : Nat) : BitVec 8 :=
  (row.getD (k / 4) 0 >>> (24 - 8 * (k % 4))).setWidth 8

theorem and_twoPow_ne_zero {w k : Nat} (word : BitVec w) (below : k < w) :
    (word &&& BitVec.twoPow w k != 0) = word.getLsbD k := by
  rw [BitVec.and_twoPow]
  cases word.getLsbD k with
  | true =>
      rw [if_pos rfl, bne_iff_ne]
      intro zero
      have bit := congrArg (·.getLsbD k) zero
      simp [below] at bit
  | false => simp

theorem getLsbD_mask (i j : Nat) :
    (mask i).getLsbD j = decide (j = 31 - i % 32) := by
  change (BitVec.twoPow 32 (31 - i % 32)).getLsbD j = _
  rw [BitVec.getLsbD_twoPow, decide_eq_true (by omega : 31 - i % 32 < 32), Bool.true_and]
  simp only [eq_comm]

theorem test_eq (row : BitRow) (i : Nat) :
    row.test i = (row.getD (i / 32) 0).getLsbD (31 - i % 32) :=
  and_twoPow_ne_zero _ (by omega)

@[simp] theorem length_set (row : BitRow) (i : Nat) : (row.set i).length = row.length :=
  List.length_modify _ _ _

theorem test_set {row : BitRow} {i : Nat} (inside : i < 32 * row.length) (j : Nat) :
    (row.set i).test j = (decide (i = j) || row.test j) := by
  have word : i / 32 < row.length := by omega
  rw [test_eq, test_eq, set, List.getD_eq_getElem?_getD, List.getElem?_modify,
    List.getD_eq_getElem?_getD]
  by_cases same : i / 32 = j / 32
  · simp only [same, if_true]
    rw [List.getElem?_eq_getElem (same ▸ word), Option.map_eq_map, Option.map_some,
      Option.getD_some, Option.getD_some, BitVec.getLsbD_or, getLsbD_mask, Bool.or_comm]
    congr 1
    rw [decide_eq_decide]
    omega
  · simp only [same, if_false]
    rw [Option.map_eq_map, Option.map_id', decide_eq_false (by omega : ¬ i = j), Bool.false_or]

theorem test_or {row other : BitRow} (same : row.length = other.length) (i : Nat) :
    (row.or other).test i = (row.test i || other.test i) := by
  rw [test_eq, test_eq, test_eq, or, List.getD_eq_getElem?_getD, List.getD_eq_getElem?_getD,
    List.getD_eq_getElem?_getD, List.getElem?_zipWith]
  rcases Nat.lt_or_ge (i / 32) row.length with inside | outside
  · rw [List.getElem?_eq_getElem inside, List.getElem?_eq_getElem (same ▸ inside)]
    exact BitVec.getLsbD_or
  · rw [List.getElem?_eq_none outside, List.getElem?_eq_none (same ▸ outside)]
    simp

theorem test_append_zeros (row : BitRow) (n i : Nat) :
    test (row ++ List.replicate n 0) i = row.test i := by
  rw [test_eq, test_eq, List.getD_eq_getElem?_getD, List.getD_eq_getElem?_getD]
  rcases Nat.lt_or_ge (i / 32) row.length with inside | outside
  · rw [List.getElem?_append_left inside]
  · rw [List.getElem?_append_right outside, List.getElem?_eq_none outside,
      List.getElem?_replicate]
    split
    · rfl
    · rfl

theorem test_zeros (n i : Nat) : test (List.replicate n 0) i = false := by
  have appended := test_append_zeros [] n i
  rw [List.nil_append] at appended
  rw [appended, test_eq]
  simp

theorem byte_test (row : BitRow) (i : Nat) :
    (row.byte (i / 8) &&& 1#8 <<< (7 - i % 8) != 0) = row.test i := by
  have word : i / 8 / 4 = i / 32 := by omega
  have below : 7 - i % 8 < 8 := by omega
  have position : 24 - 8 * (i / 8 % 4) + (7 - i % 8) = 31 - i % 32 := by omega
  change (row.byte (i / 8) &&& BitVec.twoPow 8 (7 - i % 8) != 0) = row.test i
  rw [and_twoPow_ne_zero _ below, byte, BitVec.getLsbD_setWidth, BitVec.getLsbD_ushiftRight, word,
    position, test_eq, decide_eq_true below, Bool.true_and]

end BitRow

end LaTTe.Data
