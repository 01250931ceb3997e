import LaTTe.Sparc.Word

namespace LaTTe.Sparc

/-! Fields of an instruction word. -/

def field (start width : Nat) (word : Word) : BitVec width := word.extractLsb' start width

def place {width : Nat} (start : Nat) (value : BitVec width) : Word := value.setWidth 32 <<< start

theorem field_or (start width : Nat) (a b : Word) :
    field start width (a ||| b) = field start width a ||| field start width b :=
  BitVec.extractLsb'_or

theorem field_place {start width : Nat} (inside : start + width ≤ 32) (value : BitVec width) :
    field start width (place start value) = value := by
  ext i bound
  have below : start + i < 32 := by omega
  simp [field, place, below, BitVec.getLsbD_eq_getElem bound]

theorem field_place_apart {start width other size : Nat}
    (apart : start + width ≤ other ∨ other + size ≤ start) (value : BitVec size) :
    field start width (place other value) = 0 := by
  ext i bound
  rcases apart with left | right
  · have before : start + i < other := by omega
    simp [field, place, before]
  · have behind : value.getLsbD (start + i - other) = false :=
      BitVec.getLsbD_of_ge _ _ (by omega)
    simp [field, place, behind]

theorem and_mask {width : Nat} (narrow : width ≤ 32) (word : Word) :
    word &&& BitVec.ofNat 32 (2 ^ width - 1) = place 0 (word.setWidth width) := by
  have power : 2 ^ width ≤ 2 ^ 32 := Nat.pow_le_pow_right (by decide) narrow
  have positive : 0 < 2 ^ width := Nat.two_pow_pos width
  have mask : (BitVec.ofNat 32 (2 ^ width - 1)).toNat = 2 ^ width - 1 := by
    rw [BitVec.toNat_ofNat, Nat.mod_eq_of_lt (by omega)]
  have low : word.toNat % 2 ^ width < 2 ^ 32 :=
    Nat.lt_of_lt_of_le (Nat.mod_lt _ positive) power
  apply BitVec.eq_of_toNat_eq
  rw [BitVec.toNat_and, mask, Nat.and_two_pow_sub_one_eq_mod, place, BitVec.shiftLeft_zero,
    BitVec.toNat_setWidth, BitVec.toNat_setWidth, Nat.mod_eq_of_lt low]

def Fits (width : Nat) (value : Int) : Prop :=
  -2 ^ (width - 1) ≤ value ∧ value < 2 ^ (width - 1)

instance (width : Nat) (value : Int) : Decidable (Fits width value) :=
  inferInstanceAs (Decidable (_ ∧ _))

theorem toInt_ofInt_iff {width : Nat} (positive : 0 < width) {value : Int} :
    (BitVec.ofInt width value).toInt = value ↔ Fits width value := by
  constructor
  · intro same
    rw [← same]
    exact ⟨BitVec.le_toInt _, BitVec.toInt_lt⟩
  · exact fun fits => BitVec.toInt_ofInt_eq_self positive fits.1 fits.2

theorem setWidth_signExtend {small width wide : Nat} (narrow : small ≤ width)
    (wider : width ≤ wide) (value : BitVec width) :
    (value.signExtend wide).setWidth small = value.setWidth small := by
  ext i bound
  have index : i < width := by omega
  have inside : i < wide := by omega
  simp [BitVec.getElem_signExtend, index, inside]

theorem setWidth_ofInt {small width : Nat} (narrow : small ≤ width) (value : Int) :
    (BitVec.ofInt width value).setWidth small = BitVec.ofInt small value := by
  have divides : ((2 ^ small : Nat) : Int) ∣ ((2 ^ width : Nat) : Int) :=
    Int.natCast_dvd_natCast.mpr (Nat.pow_dvd_pow 2 narrow)
  have nonneg : 0 ≤ value % ((2 ^ width : Nat) : Int) :=
    Int.emod_nonneg _ (by exact_mod_cast (Nat.two_pow_pos width).ne')
  apply BitVec.eq_of_toNat_eq
  rw [BitVec.toNat_setWidth, BitVec.toNat_ofInt, BitVec.toNat_ofInt,
    ← Int.emod_emod_of_dvd value divides]
  obtain ⟨rest, equal⟩ := Int.eq_ofNat_of_zero_le nonneg
  rw [equal, Int.toNat_natCast, ← Int.natCast_emod, Int.toNat_natCast]

end LaTTe.Sparc
