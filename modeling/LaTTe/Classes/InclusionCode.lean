import LaTTe.Classes.InclusionAgreement
import Mathlib.Algebra.Group.Nat.Defs

namespace LaTTe.Classes

open LaTTe.Data

/-! The tests that are compiled for `INSTANCEOF`, `CHECKCAST` and `AASTORE`, for references that
are not null. -/

namespace InclusionTest

variable {Class : Type}

/-- What an immediate operand makes of an offset: the field has 13 bits with a sign. -/
def immediate (offset : Nat) : Int :=
  (BitVec.ofNat 13 offset).toInt

/-- `ldub [row + offset]`, with the row that the virtual table of `oc` leads to.  What stands in
front of a row is not known. -/
def loadByte (test : InclusionTest Class) (oc : Class) (offset : Int) : Option (BitVec 32) :=
  if offset < 0 then none
  else some (((test.rows (test.tableRow oc)).byte offset.toNat).setWidth 32)

/-- The condition of the compiled `CHECKCAST` and of an `INSTANCEOF` in front of a branch. -/
def checkCastCode (test : InclusionTest Class) (oc c : Class) : Option Bool := do
  let pos := (test.typeRep c).pos
  let byte ← test.loadByte oc (immediate (pos / 8))
  some (byte &&& 1#32 <<< (7 - pos % 8) != 0)

/-- The value that the compiled `INSTANCEOF` leaves on the stack. -/
def instanceofCode (test : InclusionTest Class) (oc c : Class) : Option (BitVec 32) := do
  let pos := (test.typeRep c).pos
  let byte ← test.loadByte oc (immediate (pos / 8))
  some ((byte &&& 1#32 <<< (7 - pos % 8)) >>> (7 - pos % 8))

/-- The condition of the compiled `AASTORE` of an object of class `oc` to an array of class
`c`, which has the offset in a register. -/
def arrayStoreCode (test : InclusionTest Class) (oc c : Class) : Option Bool := do
  let encoding := test.encoding c
  let byte ← test.loadByte oc (encoding >>> 8).toInt
  some (byte &&& encoding != 0)

end InclusionTest

theorem byte_and_mask (byte : BitVec 8) {k : Nat} (below : k < 8) :
    (byte.setWidth 32 &&& 1#32 <<< k != 0) = byte.getLsbD k := by
  change (byte.setWidth 32 &&& BitVec.twoPow 32 k != 0) = byte.getLsbD k
  rw [BitRow.and_twoPow_ne_zero _ (by omega), BitVec.getLsbD_setWidth,
    decide_eq_true (by omega : k < 32), Bool.true_and]

theorem byte_and_mask_shifted (byte : BitVec 8) {k : Nat} (below : k < 8) :
    (byte.setWidth 32 &&& 1#32 <<< k) >>> k = if byte.getLsbD k then 1 else 0 := by
  have one : ∀ k < 8, BitVec.twoPow 32 k >>> k = 1 := by decide
  change (byte.setWidth 32 &&& BitVec.twoPow 32 k) >>> k = _
  rw [BitVec.and_twoPow, BitVec.getLsbD_setWidth, decide_eq_true (by omega : k < 32),
    Bool.true_and]
  cases byte.getLsbD k with
  | true => exact one k below
  | false => simp

theorem makeEncoding_offset {pos : Nat} (small : pos < 2 ^ 27) :
    (makeEncoding pos >>> 8).toInt = (pos / 8 : Nat) := by
  have split : makeEncoding pos >>> 8 = BitVec.ofNat 32 (pos / 8) := by
    apply BitVec.eq_of_getLsbD_eq
    intro i inside
    have mask : (1#32 <<< (7 - pos % 8)).getLsbD (8 + i) = false := by
      change (BitVec.twoPow 32 (7 - pos % 8)).getLsbD (8 + i) = false
      rw [BitVec.getLsbD_twoPow, Bool.and_eq_false_iff]
      right
      rw [decide_eq_false_iff_not]
      omega
    rw [makeEncoding, BitVec.getLsbD_ushiftRight, BitVec.getLsbD_or, mask, Bool.or_false,
      BitVec.getLsbD_shiftLeft, Nat.add_sub_cancel_left]
    by_cases low : 8 + i < 32
    · simp [low]
    · have high : 2 ^ 24 ≤ 2 ^ i := Nat.pow_le_pow_right (by decide) (by omega)
      rw [decide_eq_false low, BitVec.getLsbD_ofNat,
        Nat.testBit_lt_two_pow (by omega : pos / 8 < 2 ^ i)]
      simp
  have same : (BitVec.ofNat 32 (pos / 8)).toNat = pos / 8 := by
    rw [BitVec.toNat_ofNat, Nat.mod_eq_of_lt (by omega)]
  rw [split, BitVec.toInt_eq_toNat_of_lt (by omega), same]

theorem byte_and_encoding (byte : BitVec 8) (pos : Nat) :
    byte.setWidth 32 &&& makeEncoding pos = byte.setWidth 32 &&& 1#32 <<< (7 - pos % 8) := by
  apply BitVec.eq_of_getLsbD_eq
  intro i inside
  rw [makeEncoding, BitVec.getLsbD_and, BitVec.getLsbD_and, BitVec.getLsbD_or,
    BitVec.getLsbD_shiftLeft, BitVec.getLsbD_setWidth]
  by_cases low : i < 8
  · simp [low]
  · rw [BitVec.getLsbD_of_ge byte i (by omega)]
    simp

theorem immediate_eq {offset : Nat} (small : offset < 2 ^ 12) :
    InclusionTest.immediate offset = offset := by
  rw [InclusionTest.immediate, BitVec.toInt_eq_toNat_of_lt] <;>
    rw [BitVec.toNat_ofNat, Nat.mod_eq_of_lt (by omega)]
  omega

theorem loadByte_nat {Class : Type} (test : InclusionTest Class) (oc : Class) (offset : Nat) :
    test.loadByte oc offset =
      some (((test.rows (test.tableRow oc)).byte offset).setWidth 32) := by
  rw [InclusionTest.loadByte, if_neg (by omega), Int.toNat_natCast]

variable {Class : Type} [DecidableEq Class] {types : Taxonomy Class}

/-- Whatever is linked, in any order, and however often the matrix is widened: the compiled
tests of an object give the answers of `CIT_is_subclass`, as long as the byte of a column fits in
the immediate field of the first two, and in the encoding of the last. -/
theorem compiled_tests_agree {state : Linked Class}
    (reached : Reachable Unlinked (Link types) state) {oc c : Class} (linked : oc ∈ state.loaded)
    (hasTable : (types.info oc).hasTable = true) (linked' : c ∈ state.loaded) :
    (state.test.columnIdx ≤ 2 ^ 15 →
      state.test.checkCastCode oc c = some (state.test.isSubclass oc c) ∧
        state.test.instanceofCode oc c = some (if state.test.isSubclass oc c then 1 else 0)) ∧
      ∀ array, (types.info c).arrayType = some array →
        (types.info array.component).isPrimitive = false → state.test.columnIdx ≤ 2 ^ 27 →
          state.test.arrayStoreCode oc c = some (state.test.isSubclass oc array.component) := by
  have consistent := consistent_of_reachable reached
  have row : state.test.rows (state.test.tableRow oc) = state.test.row oc := by
    rw [consistent.laid.table oc linked hasTable]
    rfl
  have bit (d : Class) : ((state.test.row oc).byte ((state.test.typeRep d).pos / 8)).getLsbD
      (7 - (state.test.typeRep d).pos % 8) = state.test.isSubclass oc d := by
    rw [← byte_and_mask _ (by omega), InclusionTest.isSubclass, InclusionTest.bit,
      ← BitRow.byte_test, byte_and_mask _ (by omega)]
    exact (BitRow.and_twoPow_ne_zero _ (by omega)).symm
  refine ⟨fun few => ?_, ?_⟩
  · have column := consistent.laid.column c linked'
    have offset : InclusionTest.immediate ((state.test.typeRep c).pos / 8) =
        ((state.test.typeRep c).pos / 8 : Nat) := immediate_eq (by omega)
    have loaded := loadByte_nat state.test oc ((state.test.typeRep c).pos / 8)
    rw [row] at loaded
    constructor
    · simp only [InclusionTest.checkCastCode, offset, loaded, Option.bind_eq_bind, Option.bind_some]
      rw [byte_and_mask _ (by omega), bit]
    · simp only [InclusionTest.instanceofCode, offset, loaded, Option.bind_eq_bind,
        Option.bind_some]
      rw [byte_and_mask_shifted _ (by omega), bit]
  · intro array isArray usable few
    have known := consistent.components c linked' array isArray usable
    have column := consistent.laid.column array.component known
    have loaded := loadByte_nat state.test oc ((state.test.typeRep array.component).pos / 8)
    rw [row] at loaded
    simp only [InclusionTest.arrayStoreCode,
      consistent.encodings c linked' array isArray usable]
    rw [makeEncoding_offset (by omega), loaded, Option.bind_eq_bind, Option.bind_some,
      byte_and_encoding, byte_and_mask _ (by omega), bit]

/-- An `Object[]` may be stored to an `Object[][]`, and the tests for `Object` hold. -/
theorem compiled_tests_agree_arrays :
    arraysOfObjectLinked.test.checkCastCode 4 0 =
        some (arraysOfObjectLinked.test.isSubclass 4 0) ∧
      arraysOfObjectLinked.test.instanceofCode 4 0 =
        some (if arraysOfObjectLinked.test.isSubclass 4 0 then 1 else 0) ∧
      arraysOfObjectLinked.test.arrayStoreCode 2 3 =
        some (arraysOfObjectLinked.test.isSubclass 2 2) := by
  have linked : ∀ c : Fin 5, c ≠ 1 → c ∈ arraysOfObjectLinked.loaded := by decide
  have object := compiled_tests_agree arraysOfObject_reachable (linked 4 (by decide)) rfl
    (linked 0 (by decide))
  have store := compiled_tests_agree arraysOfObject_reachable (linked 2 (by decide)) rfl
    (linked 3 (by decide))
  exact ⟨(object.1 (by decide)).1, (object.1 (by decide)).2, store.2 ⟨2, 0, 2⟩ rfl rfl (by decide)⟩

end LaTTe.Classes
