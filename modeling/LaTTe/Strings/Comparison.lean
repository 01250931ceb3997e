import LaTTe.Strings.StringInterning
import LaTTe.Strings.Utf8Decoding

namespace LaTTe.Strings

/-! Hashing of Java strings, and their comparison with UTF-8 constants. -/

/-- The loop of `equalUtf8JavaStrings`. -/
def equalCharsFrom (text : Text) (limit : Nat) : List (BitVec 16) → Nat → Bool
  | [], _ => true
  | char :: data, ptr =>
      let read := utf8Get text limit ptr
      if (char.toNat : Int) ≠ read.char then
        false
      else
        equalCharsFrom text limit data read.ptr

/-- `equalUtf8JavaStrings`, which compares a number of characters with one of bytes. -/
def equalUtf8JavaStrings (text : Text) (length : Nat) (data : List (BitVec 16)) : Bool :=
  if data.length ≠ length then false else equalCharsFrom text length data 0

structure Utf8String where
  text : Text
  length : Nat
  chars : List Nat
  formed : WellFormed text length 0 chars

/-- Only the characters matter for the hash value of a string, and an equal string is looked
for in the same slots. -/
structure HashesContents (a : List (BitVec 16)) : Prop where
  hash : ∀ beyond beyond' : BitVec 16, hashChars beyond a = hashChars beyond' a
  chain : ∀ (strhash : Nat → Data.Slot JavaString) (size : Nat) (b : List (BitVec 16))
    (beyond beyond' : BitVec 16), a = b →
    findInternSlot strhash size a (hashChars beyond a) =
      findInternSlot strhash size b (hashChars beyond' b)

def ComparesContents (u : Utf8String) (s : List (BitVec 16)) : Prop :=
  equalUtf8JavaStrings u.text u.length s = true ↔ u.chars = s.map BitVec.toNat

section

variable {text : Text} {limit start : Nat} {chars : List Nat} {data : List (BitVec 16)}

theorem WellFormed.equalCharsFrom_iff (formed : WellFormed text limit start chars) :
    equalCharsFrom text limit data start = true ↔ data.map BitVec.toNat <+: chars := by
  induction data generalizing start chars with
  | nil => exact iff_of_true rfl List.nil_prefix
  | cons char data ih =>
      cases formed with
      | nil =>
          have ended : utf8Get text limit limit = ⟨-1, limit, []⟩ := if_pos (Nat.le_refl _)
          have different : (char.toNat : Int) ≠ -1 := by omega
          rw [equalCharsFrom, ended, if_pos different]
          simp
      | cons form rest =>
          obtain ⟨decoded, skips, _, positive, within⟩ := form.utf8Get
          have moved : (utf8Get text limit start).ptr = start + skip text limit start :=
            (utf8Get_spec (by omega)).1
          rw [equalCharsFrom, List.map_cons, List.cons_prefix_cons, ← ih rest, ← skips, ← moved]
          rw [decoded]
          split
          · rename_i different
            refine iff_of_false Bool.false_ne_true fun same => different ?_
            exact congrArg Int.ofNat same.1
          · rename_i same
            have same : char.toNat = _ := Int.ofNat_inj.mp (not_not.mp same)
            exact (and_iff_right same).symm

theorem WellFormed.length_le (formed : WellFormed text limit start chars) :
    start ≤ limit ∧ start + chars.length ≤ limit ∧
      (start + chars.length = limit ↔
        ∀ i, start ≤ i → i < limit → text i < 128#8) := by
  induction formed with
  | nil => exact ⟨Nat.le_refl _, Nat.le_refl _, iff_of_true rfl (fun i low high => by omega)⟩
  | @cons start width char chars form rest ih =>
      obtain ⟨low, few, all⟩ := ih
      obtain ⟨_, _, _, positive, within⟩ := form.utf8Get
      rw [List.length_cons]
      refine ⟨by omega, by omega, ?_⟩
      cases form with
      | one _ ascii =>
          constructor
          · intro same i above below
            rcases Nat.eq_or_lt_of_le above with rfl | later
            · exact ascii
            · exact all.mp (by omega) i later below
          · intro ascii
            have same := all.mpr fun i above => ascii i (by omega)
            omega
      | two _ lead _ =>
          refine iff_of_false (by omega) fun ascii => ?_
          exact lead.not_ascii (ascii start (Nat.le_refl _) (by omega))
      | three _ lead _ _ =>
          refine iff_of_false (by omega) fun ascii => ?_
          exact lead.not_ascii (ascii start (Nat.le_refl _) (by omega))

theorem equalUtf8JavaStrings_iff (u : Utf8String) (s : List (BitVec 16)) :
    equalUtf8JavaStrings u.text u.length s = true ↔
      u.chars = s.map BitVec.toNat ∧ ∀ i < u.length, u.text i < 128#8 := by
  obtain ⟨_, few, all⟩ := u.formed.length_le
  have length : (s.map BitVec.toNat).length = s.length := List.length_map _
  simp only [Nat.zero_add, Nat.zero_le, true_imp_iff] at few all
  rw [equalUtf8JavaStrings, ← all]
  split
  · refine iff_of_false Bool.false_ne_true ?_
    rintro ⟨same, bytes⟩
    rw [same] at bytes
    omega
  · rename_i same
    rw [u.formed.equalCharsFrom_iff]
    constructor
    · intro included
      have full := included.eq_of_length_le (by omega)
      exact ⟨full.symm, by rw [← full]; omega⟩
    · rintro ⟨same, _⟩
      rw [same]

theorem hashesContents_iff {a : List (BitVec 16)} : HashesContents a ↔ a ≠ [] := by
  constructor
  · rintro ⟨hash, _⟩ rfl
    exact absurd (hash 0 1) (by decide)
  · intro nonempty
    have hash : ∀ beyond beyond' : BitVec 16, hashChars beyond a = hashChars beyond' a :=
      fun _ _ => StringTable.hashChars_eq fun empty => absurd empty nonempty
    refine ⟨hash, ?_⟩
    rintro strhash size b beyond beyond' rfl
    rw [hash beyond beyond']

end

/-- The hash value depends on the characters only and the comparison is exact, exactly if the
string that is hashed is not empty and equal strings have no character of several bytes. -/
theorem contents_respected_iff (a : List (BitVec 16)) (u : Utf8String)
    (s : List (BitVec 16)) :
    HashesContents a ∧ ComparesContents u s ↔
      a ≠ [] ∧ (u.chars = s.map BitVec.toNat → ∀ i < u.length, u.text i < 128#8) := by
  rw [hashesContents_iff, ComparesContents, equalUtf8JavaStrings_iff]
  exact and_congr_right fun _ => and_iff_left_iff_imp

def accented : Utf8String where
  text := fun i => [0xC3#8, 0xA9#8].getD i 0
  length := 2
  chars := [0xE9]
  formed := .cons (.two (by decide) (by decide) (by decide)) .nil

theorem equal_strings_told_apart :
    ¬∀ (a : List (BitVec 16)) (u : Utf8String) (s : List (BitVec 16)),
      HashesContents a ∧ ComparesContents u s := by
  intro respected
  have exact := (respected [0xE9] accented [0xE9]).2
  exact absurd (exact.mpr rfl) (by decide)

end LaTTe.Strings
