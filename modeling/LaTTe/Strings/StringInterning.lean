import LaTTe.Data.Interning
import LaTTe.Strings.StringTable
import Mathlib.Data.Nat.Bitwise

namespace LaTTe.Strings.StringTable

open LaTTe.Data (Slot)
open LaTTe.Data.OpenAddressing
open LaTTe.Data.Interning

/-! The interning of strings over the runs of the table. -/

def probe (unit : BitVec 16) (size : Nat) (chars : List (BitVec 16)) (n : Nat) : Nat :=
  ((hashChars unit chars).toNat + n * stepOf (hashChars unit chars)) % size

theorem stepOf_odd (hash : BitVec 32) : stepOf hash % 2 = 1 := by
  have eight : (8 : BitVec 32).toNat = 8 := rfl
  have seven : (7 : BitVec 32).toNat = 7 := rfl
  simp only [stepOf, BitVec.toNat_add, BitVec.toNat_mul, eight, seven]
  omega

section

variable {strhash : Nat → Slot JavaString} {bits : Nat} {unit : BitVec 16}
variable {chars : List (BitVec 16)}

theorem probe_zero :
    probe unit (2 ^ bits) chars 0 = (hashChars unit chars).toNat &&& (2 ^ bits - 1) := by
  rw [probe, Nat.zero_mul, Nat.add_zero, Nat.and_two_pow_sub_one_eq_mod]

theorem probe_succ (n : Nat) :
    (probe unit (2 ^ bits) chars n + stepOf (hashChars unit chars)) &&& (2 ^ bits - 1) =
      probe unit (2 ^ bits) chars (n + 1) := by
  rw [Nat.and_two_pow_sub_one_eq_mod, probe, probe, Nat.mod_add_mod, Nat.succ_mul, Nat.add_assoc]

theorem probe_lt (n : Nat) : probe unit (2 ^ bits) chars n < 2 ^ bits :=
  Nat.mod_lt _ (Nat.two_pow_pos bits)

theorem probe_injOn : Set.InjOn (probe unit (2 ^ bits) chars) (Set.Iio (2 ^ bits)) :=
  odd_injOn (stepOf_odd (hashChars unit chars))

theorem probe_mod (n : Nat) :
    probe unit (2 ^ bits) chars (n % 2 ^ bits) = probe unit (2 ^ bits) chars n := by
  have same : n * stepOf (hashChars unit chars) ≡
      n % 2 ^ bits * stepOf (hashChars unit chars) [MOD 2 ^ bits] :=
    (Nat.mod_modEq n (2 ^ bits)).symm.mul_right _
  exact (same.add_left _).symm

variable (unit chars) in
theorem exists_probe {i : Nat} (below : i < 2 ^ bits) :
    ∃ n, probe unit (2 ^ bits) chars n = i := by
  have all : (Finset.range (2 ^ bits)).image (probe unit (2 ^ bits) chars) =
      Finset.range (2 ^ bits) := by
    refine Finset.eq_of_subset_of_card_le ?_ ?_
    · intro j member
      obtain ⟨n, _, rfl⟩ := Finset.mem_image.mp member
      exact Finset.mem_range.mpr (probe_lt n)
    · rw [Finset.card_image_of_injOn]
      intro a low b low' equal
      exact probe_injOn (by simpa using low) (by simpa using low') equal
  obtain ⟨n, _, here⟩ := Finset.mem_image.mp (all ▸ Finset.mem_range.mpr below)
  exact ⟨n, here⟩

/-- What a search gives back: the slot of the string, or else a free one on its path. -/
def Found (unit : BitVec 16) (strhash : Nat → Slot JavaString) (size : Nat)
    (chars : List (BitVec 16)) (index : Nat) : Prop :=
  ∃ m, Ends JavaString.chars (probe unit size) strhash chars m ∧
    ((∃ str, strhash (probe unit size chars m) = .used str ∧ index = probe unit size chars m) ∨
      strhash (probe unit size chars m) = .empty ∧
        ∃ place ≤ m, index = probe unit size chars place ∧ ∀ str, strhash index ≠ .used str)

variable (strhash unit chars) in
theorem findSlotFrom_spec (fuel n : Nat) (deleted : Option Nat) (rounds : n + fuel = 2 ^ bits)
    (passed : ∀ m < n, ¬ Stops JavaString.chars (probe unit (2 ^ bits)) strhash chars m)
    (marks : ∀ index, deleted = some index → strhash index = .deleted ∧
      ∃ place < n, index = probe unit (2 ^ bits) chars place) :
    match findSlotFrom strhash (2 ^ bits) chars (probe unit (2 ^ bits) chars 0)
        (stepOf (hashChars unit chars)) fuel (probe unit (2 ^ bits) chars n) deleted with
    | some index => Found unit strhash (2 ^ bits) chars index
    | none => ∀ m < 2 ^ bits, ¬ Stops JavaString.chars (probe unit (2 ^ bits)) strhash chars m := by
  induction fuel generalizing n deleted with
  | zero =>
      have all : n = 2 ^ bits := by omega
      subst all
      exact passed
  | succ fuel ih =>
      -- The slot does not stop the search: it goes on, unless it is back at the start.
      have onward : ∀ mark, ¬ Stops JavaString.chars (probe unit (2 ^ bits)) strhash chars n →
          (∀ index, mark = some index → strhash index = .deleted ∧
            ∃ place < n + 1, index = probe unit (2 ^ bits) chars place) →
          match (if probe unit (2 ^ bits) chars (n + 1) = probe unit (2 ^ bits) chars 0 then none
            else findSlotFrom strhash (2 ^ bits) chars (probe unit (2 ^ bits) chars 0)
              (stepOf (hashChars unit chars)) fuel (probe unit (2 ^ bits) chars (n + 1)) mark) with
          | some index => Found unit strhash (2 ^ bits) chars index
          | none =>
              ∀ m < 2 ^ bits, ¬ Stops JavaString.chars (probe unit (2 ^ bits)) strhash chars m := by
        intro mark passes marks'
        have passed' : ∀ m < n + 1,
            ¬ Stops JavaString.chars (probe unit (2 ^ bits)) strhash chars m := by
          intro m less
          by_cases same : m = n
          · rwa [same]
          · exact passed m (by omega)
        by_cases back : probe unit (2 ^ bits) chars (n + 1) = probe unit (2 ^ bits) chars 0
        · rw [if_pos back]
          have all : n + 1 = 2 ^ bits := by
            by_contra early
            have same := probe_injOn (show n + 1 < 2 ^ bits by omega) (Nat.two_pow_pos bits) back
            omega
          exact all ▸ passed'
        · rw [if_neg back]
          exact ih (n + 1) mark (by omega) passed' marks'
      have later : ∀ index, deleted = some index → strhash index = .deleted ∧
          ∃ place < n + 1, index = probe unit (2 ^ bits) chars place := by
        intro index same
        obtain ⟨mark, place, less, here⟩ := marks index same
        exact ⟨mark, place, by omega, here⟩
      rw [findSlotFrom]
      simp only [probe_succ]
      cases slot : strhash (probe unit (2 ^ bits) chars n) with
      | empty =>
          refine ⟨n, ⟨.inl slot, passed⟩, .inr ⟨slot, ?_⟩⟩
          cases deleted with
          | none => exact ⟨n, Nat.le_refl n, rfl, fun str => by rw [Option.getD_none, slot]; exact nofun⟩
          | some index =>
              obtain ⟨mark, place, less, here⟩ := marks index rfl
              exact ⟨place, by omega, here, fun str => by rw [Option.getD_some, mark]; exact nofun⟩
      | deleted =>
          refine onward _ ?_ ?_
          · rintro (empty | ⟨str, used, _⟩)
            · rw [slot] at empty
              contradiction
            · rw [slot] at used
              contradiction
          · intro index same
            cases same
            exact ⟨slot, n, Nat.lt_succ_self n, rfl⟩
      | used str =>
          by_cases same : str.chars = chars
          · simp only [same, if_true]
            exact ⟨n, ⟨.inr ⟨str, slot, same⟩, passed⟩, .inl ⟨str, slot, rfl⟩⟩
          · simp only [same, if_false]
            refine onward _ ?_ later
            rintro (empty | ⟨str', used, equal⟩)
            · rw [slot] at empty
              contradiction
            · rw [slot, Slot.used.injEq] at used
              exact same (used ▸ equal)

theorem exists_find_iff :
    (∃ index, findInternSlot strhash (2 ^ bits) chars (hashChars unit chars) = some index) ↔
      ∃ n, Stops JavaString.chars (probe unit (2 ^ bits)) strhash chars n := by
  have spec := findSlotFrom_spec strhash unit chars (2 ^ bits) 0 none
    (Nat.zero_add (2 ^ bits)) nofun nofun
  rw [findInternSlot, ← probe_zero]
  cases result : findSlotFrom strhash (2 ^ bits) chars (probe unit (2 ^ bits) chars 0)
      (stepOf (hashChars unit chars)) (2 ^ bits) (probe unit (2 ^ bits) chars 0) none with
  | some index =>
      rw [result] at spec
      obtain ⟨m, ends, _⟩ := spec
      exact iff_of_true ⟨index, rfl⟩ ⟨m, ends.1⟩
  | none =>
      rw [result] at spec
      refine iff_of_false nofun ?_
      rintro ⟨n, stops⟩
      refine spec (n % 2 ^ bits) (Nat.mod_lt n (Nat.two_pow_pos bits)) ?_
      unfold Stops at stops ⊢
      rwa [probe_mod]

theorem found {index : Nat}
    (result : findInternSlot strhash (2 ^ bits) chars (hashChars unit chars) = some index) :
    Found unit strhash (2 ^ bits) chars index := by
  have spec := findSlotFrom_spec strhash unit chars (2 ^ bits) 0 none
    (Nat.zero_add (2 ^ bits)) nofun nofun
  rw [findInternSlot, ← probe_zero] at result
  rwa [result] at spec

theorem freeFrom_eq {m : Nat} (fuel n : Nat) (le : n ≤ m) (less : m < n + fuel)
    (empty : strhash (probe unit (2 ^ bits) chars m) = .empty)
    (passed : ∀ j < m, strhash (probe unit (2 ^ bits) chars j) ≠ .empty) :
    freeFrom strhash (2 ^ bits) (stepOf (hashChars unit chars)) fuel
      (probe unit (2 ^ bits) chars n) = some (probe unit (2 ^ bits) chars m) := by
  induction fuel generalizing n with
  | zero => omega
  | succ fuel ih =>
      rw [freeFrom]
      by_cases same : n = m
      · subst same
        rw [empty]
      · have filled := passed n (by omega)
        have next := ih (n + 1) (by omega) (by omega)
        rw [probe_succ]
        cases slot : strhash (probe unit (2 ^ bits) chars n) with
        | empty => exact absurd slot filled
        | deleted => exact next
        | used str => exact next

end

/-! The invariant of the table. -/

structure Interning (unit : BitVec 16) (strhash : Nat → Slot JavaString)
    (size count : Nat) : Prop where
  sized : ∃ bits, size = 2 ^ (bits + 1)
  well : WellPlaced JavaString.chars (probe unit size) strhash
  inside : ∀ i, strhash i ≠ .empty → i < size
  counted : count = (usedBelow strhash size).card
  room : 4 * count < 3 * size + 4

def Sound (unit : BitVec 16) (table : StringTable) : Prop :=
  match table.strhash with
  | none => table.size = 0 ∧ table.count = 0
  | some strhash => Interning unit strhash table.size table.count

def Has (table : StringTable) (str : JavaString) : Prop :=
  ∃ strhash i, table.strhash = some strhash ∧ strhash i = .used str

def Reads (unit : BitVec 16) (table : StringTable) (beyond : JavaString → BitVec 16) : Prop :=
  ∀ str, table.Has str → str.chars = [] → beyond str = unit

/-- The search for the string, as `findInternSlotFromString` makes it, finds it. -/
def Finds (table : StringTable) (beyond : JavaString → BitVec 16) (str : JavaString) : Prop :=
  ∃ strhash i, table.strhash = some strhash ∧
    findInternSlot strhash table.size str.chars (hashChars (beyond str) str.chars) = some i ∧
      strhash i = .used str

/-- There is a way to end a search for the characters: the table grows first, or a slot is
empty, or a string has these characters. -/
def Serves (table : StringTable) (chars : List (BitVec 16)) : Prop :=
  table.isFull ∨ ∃ strhash, table.strhash = some strhash ∧
    ((∃ i < table.size, strhash i = .empty) ∨ Data.OpenAddressing.Has JavaString.chars strhash chars)

theorem hashChars_eq {unit unit' : BitVec 16} {chars : List (BitVec 16)}
    (same : chars = [] → unit = unit') : hashChars unit chars = hashChars unit' chars := by
  cases chars with
  | nil => rw [same rfl]
  | cons c rest => rfl

section

variable {unit : BitVec 16} {strhash : Nat → Slot JavaString} {size count : Nat}

namespace Interning

theorem start : Interning unit (fun _ => .empty) 1024 0 where
  sized := ⟨9, rfl⟩
  well := .empty
  inside := fun _ absurd => (absurd rfl).elim
  counted := by simp [usedBelow, Slot.isUsed]
  room := by decide

theorem used_inside (interning : Interning unit strhash size count) {i : Nat} {str : JavaString}
    (used : strhash i = .used str) : i < size :=
  interning.inside i (by rw [used]; exact nofun)

theorem exists_stops_iff (interning : Interning unit strhash size count)
    {chars : List (BitVec 16)} :
    (∃ n, Stops JavaString.chars (probe unit size) strhash chars n) ↔
      (∃ i < size, strhash i = .empty) ∨ Data.OpenAddressing.Has JavaString.chars strhash chars := by
  obtain ⟨bits, rfl⟩ := interning.sized
  constructor
  · rintro ⟨n, empty | ⟨str, used, equal⟩⟩
    · exact .inl ⟨_, probe_lt n, empty⟩
    · exact .inr ⟨_, str, used, equal⟩
  · rintro (⟨i, below, empty⟩ | ⟨i, str, used, rfl⟩)
    · obtain ⟨n, rfl⟩ := exists_probe unit chars below
      exact ⟨n, .inl empty⟩
    · obtain ⟨n, _, stops⟩ := interning.well.stops used
      exact ⟨n, stops⟩

theorem find_used (interning : Interning unit strhash size count) {i : Nat} {str : JavaString}
    (used : strhash i = .used str) :
    findInternSlot strhash size str.chars (hashChars unit str.chars) = some i := by
  obtain ⟨bits, rfl⟩ := interning.sized
  obtain ⟨n, _, stops⟩ := interning.well.stops used
  obtain ⟨index, result⟩ := exists_find_iff.mpr ⟨n, stops⟩
  obtain ⟨m, ends, slot⟩ := found result
  have here := interning.well.ends_used used ends
  cases slot with
  | inl there =>
      obtain ⟨_, _, same⟩ := there
      rw [result, same, here]
  | inr free =>
      rw [here, used] at free
      exact nomatch free.1

theorem insert (interning : Interning unit strhash size count) (few : 4 * count < 3 * size)
    {str : JavaString} {index : Nat} (result : Found unit strhash size str.chars index)
    (free : ∀ other, strhash index ≠ .used other) :
    ¬ Data.OpenAddressing.Has JavaString.chars strhash str.chars ∧
      Interning unit (Function.update strhash index (.used str)) size (count + 1) := by
  obtain ⟨m, ends, slot⟩ := result
  cases slot with
  | inl there =>
      obtain ⟨other, used, same⟩ := there
      exact absurd (same ▸ used) (free other)
  | inr there =>
      obtain ⟨empty, place, le, rfl, _⟩ := there
      have absent := interning.well.not_has ends empty
      have below : probe unit size str.chars place < size := by
        obtain ⟨bits, rfl⟩ := interning.sized
        exact probe_lt place
      refine ⟨absent, interning.sized, ?_, ?_, ?_, by omega⟩
      · exact interning.well.insert (fun n less => ends.passed n (by omega)) absent
      · intro i filled
        by_cases same : i = probe unit size str.chars place
        · exact same ▸ below
        · rw [Function.update_of_ne same] at filled
          exact interning.inside i filled
      · have unused : (strhash (probe unit size str.chars place)).isUsed = false := by
          cases slot : strhash (probe unit size str.chars place) with
          | used other => exact absurd slot (free other)
          | _ => rfl
        rw [card_usedBelow_insert below unused, ← interning.counted]

theorem delete (interning : Interning unit strhash size count) {i : Nat} {str : JavaString}
    (used : strhash i = .used str) :
    Interning unit (Function.update strhash i .deleted) size (count - 1) := by
  have below := interning.used_inside used
  have isUsed : (strhash i).isUsed = true := Slot.isUsed_iff.mpr ⟨str, used⟩
  have card := card_usedBelow_delete below isUsed
  have counted := interning.counted
  have room := interning.room
  refine ⟨interning.sized, interning.well.delete i, fun j filled => ?_, by omega, by omega⟩
  by_cases same : j = i
  · exact same ▸ below
  · rw [Function.update_of_ne same] at filled
    exact interning.inside j filled

end Interning

/-! A growth. -/

variable {old : Nat → Slot JavaString} {beyond : JavaString → BitVec 16}

variable (unit) in
theorem rehashString_enters (bits : Nat) (todo : List Nat)
    (reads : ∀ i str, old i = .used str → str.chars = [] → beyond str = unit) :
    Copied.Enters JavaString.chars (probe unit (2 ^ bits)) old (2 ^ bits) (2 ^ bits)
      (rehashString beyond old (2 ^ bits)) todo where
  skips := by
    intro new i _ unused
    cases slot : old i with
    | used str =>
        rw [slot] at unused
        contradiction
    | _ => simp only [rehashString, slot]
  enters := by
    classical
    intro done new copied few i str used absent
    obtain ⟨n, low, empty⟩ := exists_empty (k := str.chars) probe_lt probe_injOn
      (copied.filled ▸ copied.counted ▸ few)
    have some : ∃ n, new (probe unit (2 ^ bits) str.chars n) = .empty := ⟨n, empty⟩
    have early : Nat.find some < 0 + 2 ^ bits := by
      have le := Nat.find_min' some empty
      have low : n < 2 ^ bits := low
      omega
    refine ⟨Nat.find some, ?_, Nat.find_spec some, fun m less => Nat.find_min some less,
      probe_lt _⟩
    have free := freeFrom_eq (2 ^ bits) 0 (Nat.zero_le _) early (Nat.find_spec some)
      fun m less => Nat.find_min some less
    have hash := hashChars_eq (reads i str used)
    simp only [rehashString, used, hash, ← probe_zero, free]

theorem Interning.rehash (interning : Interning unit strhash size count)
    (reads : ∀ i str, strhash i = .used str → str.chars = [] → beyond str = unit) :
    ∃ new, (List.range size).reverse.foldlM (rehashString beyond strhash (size * 2))
        (fun _ => .empty) = .ok new ∧
      Interning unit new (size * 2) count ∧ 4 * count < 3 * (size * 2) ∧
        (∀ str, (∃ i, new i = .used str) ↔ ∃ i, strhash i = .used str) ∧
          ∃ i < size * 2, new i = .empty := by
  obtain ⟨bits, rfl⟩ := interning.sized
  have room := interning.room
  have counted := interning.counted
  have larger : 2 ^ (bits + 1) * 2 = 2 ^ (bits + 1 + 1) := (Nat.pow_succ 2 (bits + 1)).symm
  have two : 2 ≤ 2 ^ (bits + 1) := by
    rw [Nat.pow_succ]
    have := Nat.two_pow_pos bits
    omega
  rw [larger]
  obtain ⟨new, result, copied⟩ := Copied.all
    (rehashString_enters unit (bits + 1 + 1) (List.range (2 ^ (bits + 1))).reverse reads)
    interning.well.unique (show (usedBelow strhash (2 ^ (bits + 1))).card ≤ _ by omega)
  have card := copied.card
  refine ⟨new, result, ⟨⟨bits + 1, rfl⟩, copied.well, copied.inside, by omega, by omega⟩,
    by omega, copied.kept interning.inside, ?_⟩
  have room : (filledBelow new (2 ^ (bits + 1 + 1))).card < 2 ^ (bits + 1 + 1) := by
    rw [copied.filled]
    omega
  obtain ⟨n, _, empty⟩ := exists_empty (k := []) probe_lt
    (@probe_injOn (bits + 1 + 1) unit []) room
  exact ⟨_, probe_lt n, empty⟩

end

/-! The calls. -/

section

variable {table next : StringTable} {unit unit' : BitVec 16} {beyond : JavaString → BitVec 16}
variable {str : JavaString}

section

variable (sound : Sound unit table) (reads : table.Reads unit beyond)

include sound reads

/-- The table that a string is looked for in. -/
theorem Sound.prepare :
    ∃ strhash size, prepareStrings beyond table = .ok ⟨some strhash, size, table.count⟩ ∧
      Interning unit strhash size table.count ∧ 4 * table.count < 3 * size ∧
      (∀ str, (∃ i, strhash i = .used str) ↔ table.Has str) ∧
      ∀ chars, table.Serves chars ↔ ∃ n, Stops JavaString.chars (probe unit size) strhash chars n := by
  obtain ⟨made, size, count⟩ := table
  cases made with
  | none =>
      obtain ⟨rfl, rfl⟩ : size = 0 ∧ count = 0 := sound
      have full : isFull ⟨none, 0, 0⟩ := Nat.le_refl 0
      refine ⟨fun _ => .empty, 1024, by rw [prepareStrings, if_pos full]; rfl, .start, by decide,
        fun str => ?_, fun chars => iff_of_true (.inl full) ⟨0, .inl rfl⟩⟩
      constructor
      · rintro ⟨_, absurd⟩
        contradiction
      · rintro ⟨_, _, absurd, _⟩
        contradiction
  | some strhash =>
      have interning : Interning unit strhash size count := sound
      have same : ∀ str, (∃ i, strhash i = .used str) ↔ Has ⟨some strhash, size, count⟩ str := by
        intro str
        constructor
        · rintro ⟨i, used⟩
          exact ⟨strhash, i, rfl, used⟩
        · rintro ⟨_, i, made, used⟩
          cases made
          exact ⟨i, used⟩
      by_cases full : isFull ⟨some strhash, size, count⟩
      · obtain ⟨new, result, interning', few, kept, empty⟩ :=
          interning.rehash fun i str used => reads str ((same str).mp ⟨i, used⟩)
        refine ⟨new, size * 2, ?_, interning', few, fun str => (kept str).trans (same str),
          fun chars => iff_of_true (.inl full) (interning'.exists_stops_iff.mpr (.inl empty))⟩
        rw [prepareStrings, if_pos full]
        simp only [rehashStrings, result]
        rfl
      · refine ⟨strhash, size, by rw [prepareStrings, if_neg full], interning,
          Nat.lt_of_not_le full, same, fun chars => ?_⟩
        rw [interning.exists_stops_iff]
        constructor
        · rintro (absurd | ⟨_, made, serves⟩)
          · exact (full absurd).elim
          · cases made
            exact serves
        · exact fun serves => .inr ⟨strhash, rfl, serves⟩

theorem Sound.aborts (own : str.chars = [] → unit' = unit) (unserved : ¬ table.Serves str.chars) :
    internString beyond unit' table str = .error .abort := by
  obtain ⟨strhash, size, ready, interning, _, _, serves⟩ := sound.prepare reads
  obtain ⟨bits, rfl⟩ := interning.sized
  have nowhere : findInternSlot strhash (2 ^ (bits + 1)) str.chars (hashChars unit' str.chars) =
      none := by
    rw [hashChars_eq own]
    cases result : findInternSlot strhash (2 ^ (bits + 1)) str.chars (hashChars unit str.chars) with
    | none => rfl
    | some index =>
        exact absurd ((serves str.chars).mpr (exists_find_iff.mp ⟨index, result⟩)) unserved
  rw [internString, ready]
  simp only [bind, Except.bind, enterString, nowhere]

/-- A call returns the string of its characters, which is the given one if there was none. -/
theorem Sound.intern (own : str.chars = [] → unit' = unit) (served : table.Serves str.chars) :
    ∃ m next, internString beyond unit' table str = .ok (m, next) ∧ Sound unit next ∧
      m.chars = str.chars ∧ (table.Has m ∨ m = str ∧ ∀ b, table.Has b → b.chars ≠ str.chars) ∧
      ∀ b, next.Has b ↔ table.Has b ∨ b = m := by
  obtain ⟨strhash, size, ready, interning, few, same, serves⟩ := sound.prepare reads
  have stops := (serves str.chars).mp served
  obtain ⟨bits, pow⟩ := interning.sized
  have searched : ∃ index, findInternSlot strhash size str.chars (hashChars unit' str.chars) =
      some index ∧ Found unit strhash size str.chars index := by
    rw [hashChars_eq own]
    subst pow
    obtain ⟨index, result⟩ := exists_find_iff.mpr stops
    exact ⟨index, result, found result⟩
  obtain ⟨index, result, place⟩ := searched
  have call : internString beyond unit' table str =
      enterString unit' ⟨some strhash, size, table.count⟩ str := by
    rw [internString, ready]
    rfl
  have has : ∀ b, Has ⟨some strhash, size, table.count⟩ b ↔ table.Has b := by
    intro b
    rw [← same b]
    constructor
    · rintro ⟨_, i, made, used⟩
      cases made
      exact ⟨i, used⟩
    · rintro ⟨i, used⟩
      exact ⟨strhash, i, rfl, used⟩
  cases slot : strhash index with
  | used m =>
      have equal : m.chars = str.chars := by
        obtain ⟨n, ends, there⟩ := place
        cases there with
        | inl used =>
            obtain ⟨_, _, rfl⟩ := used
            cases ends.1 with
            | inl empty =>
                rw [slot] at empty
                contradiction
            | inr other =>
                obtain ⟨m', used', equal⟩ := other
                rw [slot, Slot.used.injEq] at used'
                rw [used', equal]
        | inr free =>
            obtain ⟨_, _, _, _, free⟩ := free
            exact absurd slot (free m)
      simp only [enterString, result, slot] at call
      have present := (same m).mp ⟨index, slot⟩
      refine ⟨m, _, call, interning, equal, .inl present, fun b => ?_⟩
      rw [has b]
      exact ⟨.inl, fun either => either.elim id fun same => same ▸ present⟩
  | _ =>
      have free : ∀ other, strhash index ≠ .used other := by
        intro other used
        rw [slot] at used
        contradiction
      obtain ⟨absent, interning'⟩ := interning.insert few place free
      simp only [enterString, result, slot] at call
      refine ⟨str, _, call, interning', rfl, .inr ⟨rfl, fun b present equal => ?_⟩, fun b => ?_⟩
      · obtain ⟨i, used⟩ := (same b).mpr present
        exact absent ⟨i, b, used, equal⟩
      · rw [← same b]
        constructor
        · rintro ⟨_, i, made, used⟩
          cases made
          by_cases last : i = index
          · rw [last, Function.update_self, Slot.used.injEq] at used
            exact .inr used.symm
          · rw [Function.update_of_ne last] at used
            exact .inl ⟨i, used⟩
        · rintro (⟨i, used⟩ | rfl)
          · have apart : i ≠ index := fun last => free b (last ▸ used)
            exact ⟨_, i, rfl, by rw [Function.update_of_ne apart, used]⟩
          · exact ⟨_, index, rfl, Function.update_self _ _ _⟩

theorem Sound.finds (has : table.Has str) : table.Finds beyond str := by
  have hash := hashChars_eq (reads str has)
  obtain ⟨strhash, i, made, used⟩ := has
  unfold Sound at sound
  rw [made] at sound
  exact ⟨strhash, i, made, by rw [hash]; exact sound.find_used used, used⟩

theorem Sound.unintern (has : table.Has str) :
    ∃ next, uninternJavaString beyond table str = .ok next ∧ Sound unit next ∧
      ∀ b, next.Has b ↔ table.Has b ∧ b ≠ str := by
  obtain ⟨strhash, i, made, result, used⟩ := sound.finds reads has
  obtain ⟨_, size, count⟩ := table
  obtain rfl := made
  have interning : Interning unit strhash size count := sound
  have call : uninternJavaString beyond ⟨some strhash, size, count⟩ str =
      .ok ⟨some (Function.update strhash i .deleted), size, count - 1⟩ := by
    simp only [uninternJavaString, result, used]
  refine ⟨_, call, interning.delete used, fun b => ?_⟩
  constructor
  · rintro ⟨_, j, made, used'⟩
    cases made
    by_cases same : j = i
    · rw [same, Function.update_self] at used'
      contradiction
    · rw [Function.update_of_ne same] at used'
      refine ⟨⟨strhash, j, rfl, used'⟩, fun equal => same ?_⟩
      exact interning.well.unique j i b str used' used (congrArg _ equal)
  · rintro ⟨⟨_, j, made, used'⟩, apart⟩
    cases made
    have other : j ≠ i := by
      rintro rfl
      rw [used, Slot.used.injEq] at used'
      exact apart used'.symm
    exact ⟨_, j, rfl, by rw [Function.update_of_ne other, used']⟩

end

end

/-! The runs of the table. -/

inductive Run (allowed : StringTable → (JavaString → BitVec 16) → BitVec 16 → JavaString → Prop) :
    List (Event (List (BitVec 16)) JavaString) → StringTable → Prop
  | start : Run allowed [] .initial
  | intern {trace : List (Event (List (BitVec 16)) JavaString)} {table next : StringTable}
      (str : JavaString) (beyond : JavaString → BitVec 16) (m : JavaString)
      (run : Run allowed trace table) (permitted : allowed table beyond (beyond str) str)
      (same : ∀ b, table.Has b → b.address = str.address → b = str)
      (called : internJavaString beyond table str = .ok (m, next)) :
      Run allowed (.made str.chars m :: trace) next
  | convert {trace : List (Event (List (BitVec 16)) JavaString)} {table next : StringTable}
      (chars : List (BitVec 16)) (address : Nat) (beyond : JavaString → BitVec 16)
      (unit : BitVec 16) (m : JavaString) (run : Run allowed trace table)
      (permitted : allowed table beyond unit ⟨address, chars⟩)
      (fresh : ∀ b, table.Has b → b.address ≠ address)
      (called : utf8Const2JavaString beyond unit table chars address = .ok (m, next)) :
      Run allowed (.made chars m :: trace) next
  | unintern {trace : List (Event (List (BitVec 16)) JavaString)} {table next : StringTable}
      (str : JavaString) (beyond : JavaString → BitVec 16) (run : Run allowed trace table)
      (permitted : allowed table beyond (beyond str) str) (has : table.Has str)
      (called : uninternJavaString beyond table str = .ok next) :
      Run allowed (.removed str :: trace) next

def Careful (unit : BitVec 16) (table : StringTable) (beyond : JavaString → BitVec 16)
    (unit' : BitVec 16) (str : JavaString) : Prop :=
  table.Reads unit beyond ∧ (str.chars = [] → unit' = unit)

section

variable {trace : List (Event (List (BitVec 16)) JavaString)} {table next : StringTable}
variable {unit unit' : BitVec 16} {beyond : JavaString → BitVec 16} {str m : JavaString}

theorem not_has_initial : ¬ initial.Has str :=
  fun ⟨_, _, absurd, _⟩ => nomatch absurd

theorem Sound.interned (sound : Sound unit table) (careful : Careful unit table beyond unit' str)
    (kept : Kept JavaString.chars JavaString.address table.Has trace)
    (same : ∀ b, table.Has b → b.address = str.address → b = str)
    (called : internString beyond unit' table str = .ok (m, next)) :
    Sound unit next ∧
      Kept JavaString.chars JavaString.address next.Has (.made str.chars m :: trace) := by
  by_cases served : table.Serves str.chars
  · obtain ⟨m, next, called', sound', chars, origin, has⟩ :=
      sound.intern careful.1 careful.2 served
    obtain ⟨rfl, rfl⟩ := Prod.mk.inj (Except.ok.inj (called'.symm.trans called))
    refine ⟨sound', kept.made chars (origin.imp id And.right) (fun b present equal => ?_) has⟩
    cases origin with
    | inl present' => exact kept.addresses b m present present' equal
    | inr new =>
        obtain ⟨rfl, _⟩ := new
        exact same b present equal
  · rw [sound.aborts careful.1 careful.2 served] at called
    contradiction

theorem Run.kept (run : Run (Careful unit) trace table) :
    Sound unit table ∧ Kept JavaString.chars JavaString.address table.Has trace := by
  induction run with
  | start => exact ⟨⟨rfl, rfl⟩, .start fun str => not_has_initial⟩
  | intern str beyond m run permitted same called ih =>
      exact ih.1.interned permitted ih.2 same called
  | convert chars address beyond unit' m run permitted fresh called ih =>
      exact ih.1.interned permitted ih.2
        (fun b present equal => absurd equal (fresh b present)) called
  | unintern str beyond run permitted has called ih =>
      obtain ⟨next, called', sound', left⟩ := ih.1.unintern permitted.1 has
      obtain rfl := Except.ok.inj (called'.symm.trans called)
      exact ⟨sound', ih.2.removed left⟩

/-- In every run in which the empty strings are hashed to one value, strings are interned
and those that were not removed are found; a call returns exactly if it is served. -/
theorem strings_interned (run : Run (Careful unit) trace table) :
    Interns JavaString.address trace ∧
      (∀ m beyond, Live trace m → table.Reads unit beyond → table.Finds beyond m) ∧
      ∀ str beyond unit', Careful unit table beyond unit' str →
        ((∃ result, internString beyond unit' table str = .ok result) ↔
          table.Serves str.chars) := by
  obtain ⟨sound, kept⟩ := run.kept
  refine ⟨kept.interns, fun m beyond live reads => sound.finds reads (kept.live m live),
    fun str beyond unit' careful => ?_⟩
  constructor
  · rintro ⟨result, returns⟩
    by_contra unserved
    rw [sound.aborts careful.1 careful.2 unserved] at returns
    contradiction
  · intro served
    obtain ⟨m, next, called, _⟩ := sound.intern careful.1 careful.2 served
    exact ⟨(m, next), called⟩

end

/-! A table without strings in which nothing can be interned. -/

section

variable {strhash : Nat → Slot JavaString} {size : Nat} {chars : List (BitVec 16)}
variable {hash : BitVec 32} {unit : BitVec 16} {beyond : JavaString → BitVec 16} {n : Nat}

variable (chars) in
theorem find_free (empty : strhash (hash.toNat &&& (size - 1)) = .empty) (positive : 0 < size) :
    findInternSlot strhash size chars hash = some (hash.toNat &&& (size - 1)) := by
  obtain ⟨fuel, rfl⟩ := Nat.exists_eq_succ_of_ne_zero (Nat.ne_of_gt positive)
  simp only [findInternSlot, findSlotFrom, empty, Option.getD_none]

theorem find_first {str : JavaString} (used : strhash (hash.toNat &&& (size - 1)) = .used str)
    (positive : 0 < size) :
    findInternSlot strhash size str.chars hash = some (hash.toNat &&& (size - 1)) := by
  obtain ⟨fuel, rfl⟩ := Nat.exists_eq_succ_of_ne_zero (Nat.ne_of_gt positive)
  simp only [findInternSlot, findSlotFrom, used, if_true]

def letter (i : Nat) : List (BitVec 16) :=
  [BitVec.ofNat 16 i]

theorem hash_letter (small : n < 1024) :
    (hashChars unit (letter n)).toNat &&& (1024 - 1) = n := by
  have value : (hashChars unit (letter n)).toNat = n := by
    show ((BitVec.ofNat 16 n).setWidth 32).toNat = n
    rw [BitVec.toNat_setWidth, BitVec.toNat_ofNat]
    omega
  rw [value, show 1024 - 1 = 2 ^ 10 - 1 from rfl, Nat.and_two_pow_sub_one_eq_mod]
  exact Nat.mod_eq_of_lt small

def marks (n j : Nat) : Slot JavaString :=
  if j < n then .deleted else .empty

def marked (n : Nat) : StringTable :=
  ⟨some (marks n), 1024, 0⟩

theorem marks_free (n : Nat) : marks n n = .empty :=
  if_neg (Nat.lt_irrefl n)

theorem update_marks (n : Nat) (str : JavaString) :
    Function.update (Function.update (marks n) n (.used str)) n .deleted = marks (n + 1) := by
  funext j
  by_cases same : j = n
  · rw [same, Function.update_self, marks, if_pos (Nat.lt_succ_self n)]
  · have below : j < n + 1 ↔ j < n := by omega
    rw [Function.update_of_ne same, Function.update_of_ne same]
    simp only [marks, below]

def entered (n : Nat) (str : JavaString) : StringTable :=
  ⟨some (Function.update (marks n) n (.used str)), 1024, 1⟩

variable (unit) in
theorem enter_at (str : JavaString)
    (start : (hashChars unit str.chars).toNat &&& (1024 - 1) = n) :
    enterString unit (marked n) str = .ok (str, entered n str) := by
  have free : marks n ((hashChars unit str.chars).toNat &&& (1024 - 1)) = .empty := by
    rw [start, marks_free]
  have found := find_free str.chars free (by decide)
  simp only [enterString, marked, found, start, marks_free]
  rfl

theorem prepare_initial : prepareStrings beyond initial = .ok (marked 0) := by
  rw [prepareStrings, if_pos (show initial.isFull from Nat.le_refl 0)]
  rfl

theorem prepare_marked (n : Nat) : prepareStrings beyond (marked n) = .ok (marked n) := by
  have notFull : ¬ (marked n).isFull := by
    show ¬ 4 * 0 ≥ 3 * 1024
    omega
  rw [prepareStrings, if_neg notFull]

theorem not_has_marked {str : JavaString} (n : Nat) : ¬ (marked n).Has str := by
  rintro ⟨_, j, made, used⟩
  cases made
  unfold marks at used
  split at used <;> contradiction

theorem unintern_entered {str : JavaString}
    (start : (hashChars (beyond str) str.chars).toNat &&& (1024 - 1) = n) :
    uninternJavaString beyond (entered n str) str = .ok (marked (n + 1)) := by
  have used : Function.update (marks n) n (.used str)
      ((hashChars (beyond str) str.chars).toNat &&& (1024 - 1)) = .used str := by
    rw [start, Function.update_self]
  have found := find_first used (by decide)
  simp only [uninternJavaString, entered, found, used]
  rw [start, update_marks]
  rfl

theorem run_marked (small : n ≤ 1024) (beyond : JavaString → BitVec 16) (start : 0 < n) :
    ∃ trace, Run (fun _ _ _ _ => True) trace (marked n) := by
  have pair : ∀ n < 1024, ∀ trace table, Run (fun _ _ _ _ => True) trace table →
      (∀ str, ¬ table.Has str) → prepareStrings beyond table = .ok (marked n) →
        ∃ trace, Run (fun _ _ _ _ => True) trace (marked (n + 1)) := by
    intro n small trace table run none ready
    have called : internJavaString beyond table ⟨n, letter n⟩ =
        .ok (⟨n, letter n⟩, entered n ⟨n, letter n⟩) := by
      rw [internJavaString, internString, ready]
      exact enter_at _ _ (hash_letter small)
    have interned := run.intern _ beyond _ trivial (fun b has => absurd has (none b)) called
    exact ⟨_, interned.unintern _ beyond trivial ⟨_, n, rfl, Function.update_self _ _ _⟩
      (unintern_entered (hash_letter small))⟩
  induction n with
  | zero => contradiction
  | succ n ih =>
      by_cases first : n = 0
      · subst first
        exact pair 0 (by decide) [] initial .start (fun str => not_has_initial) prepare_initial
      · obtain ⟨trace, run⟩ := ih (by omega) (by omega)
        exact pair n (by omega) trace _ run (fun str => not_has_marked n) (prepare_marked n)

theorem sound_marked : Sound unit (marked 1024) where
  sized := ⟨9, rfl⟩
  well := by
    have none : ∀ i str, marks 1024 i ≠ .used str := fun i str used =>
      not_has_marked 1024 ⟨_, i, rfl, used⟩
    exact ⟨fun i str used => absurd used (none i str), fun i j str str' used =>
      absurd used (none i str)⟩
  inside := by
    intro i filled
    by_contra above
    exact filled (if_neg above)
  counted := by
    refine (Finset.card_eq_zero.mpr (Finset.filter_eq_empty_iff.mpr fun i _ used => ?_)).symm
    obtain ⟨str, used⟩ := Slot.isUsed_iff.mp used
    exact not_has_marked 1024 ⟨_, i, rfl, used⟩
  room := by decide

end

theorem search_aborts_without_strings :
    ∃ trace table, Run (fun _ _ _ _ => True) trace table ∧ (∀ str, ¬ table.Has str) ∧
      0 < table.size ∧ ∀ beyond str, internJavaString beyond table str = .error .abort := by
  obtain ⟨trace, run⟩ := run_marked (Nat.le_refl 1024) (fun _ => 0) (by decide)
  refine ⟨trace, _, run, fun str => not_has_marked 1024, by decide, fun beyond str => ?_⟩
  have unserved : ¬ (marked 1024).Serves str.chars := by
    rintro (full | ⟨_, made, ⟨i, below, empty⟩ | ⟨i, str', used, _⟩⟩)
    · exact absurd full (by decide)
    · cases made
      rw [marks, if_pos (show i < 1024 from below)] at empty
      contradiction
    · cases made
      exact not_has_marked 1024 ⟨_, i, rfl, used⟩
  have sound : Sound (beyond str) (marked 1024) := sound_marked
  exact sound.aborts (fun b has => absurd has (not_has_marked 1024)) (fun _ => rfl) unserved

theorem run_empty {allowed : StringTable → (JavaString → BitVec 16) → BitVec 16 → JavaString → Prop}
    (permitted : allowed initial (fun _ => 0) 0 ⟨1, []⟩) :
    Run allowed [.made [] ⟨1, []⟩] (entered 0 ⟨1, []⟩) := by
  refine .intern ⟨1, []⟩ (fun _ => 0) _ .start permitted
    (fun b has => absurd has not_has_initial) ?_
  rw [internJavaString, internString, prepare_initial]
  exact enter_at 0 ⟨1, []⟩ rfl

theorem has_entered {n : Nat} {str b : JavaString} (has : (entered n str).Has b) : b = str := by
  obtain ⟨_, j, made, used⟩ := has
  cases made
  by_cases same : j = n
  · rw [same, Function.update_self, Slot.used.injEq] at used
    exact used.symm
  · rw [Function.update_of_ne same] at used
    exact absurd ⟨_, j, rfl, used⟩ (not_has_marked n)

theorem prepare_entered {beyond : JavaString → BitVec 16} {str : JavaString} (n : Nat) :
    prepareStrings beyond (entered n str) = .ok (entered n str) := by
  have notFull : ¬ (entered n str).isFull := by
    show ¬ 4 * 1 ≥ 3 * 1024
    omega
  rw [prepareStrings, if_neg notFull]

theorem strings_interned_empty :
    ∃ trace table, Run (Careful 0) trace table ∧ trace.length = 2 ∧
      Interns JavaString.address trace ∧
      (∀ m beyond, Live trace m → table.Reads 0 beyond → table.Finds beyond m) ∧
      ∀ str beyond unit', Careful 0 table beyond unit' str →
        ((∃ result, internString beyond unit' table str = .ok result) ↔
          table.Serves str.chars) := by
  have first : Run (Careful 0) [.made [] ⟨1, []⟩] (entered 0 ⟨1, []⟩) :=
    run_empty ⟨fun b has => absurd has not_has_initial, fun _ => rfl⟩
  have slot : Function.update (marks 0) 0 (.used ⟨1, []⟩)
      ((hashChars 0 []).toNat &&& (1024 - 1)) = .used ⟨1, []⟩ := by decide
  have called : internJavaString (fun _ => 0) (entered 0 ⟨1, []⟩) ⟨2, []⟩ =
      .ok (⟨1, []⟩, entered 0 ⟨1, []⟩) := by
    rw [internJavaString, internString, prepare_entered]
    have found := find_first slot (by decide)
    simp only [bind, Except.bind, enterString, entered, found, slot]
  have run := first.intern ⟨2, []⟩ (fun _ => 0) _ ⟨fun _ _ _ => rfl, fun _ => rfl⟩
    (fun b has equal => by rw [has_entered has] at equal; contradiction) called
  exact ⟨_, _, run, rfl, strings_interned run⟩

end LaTTe.Strings.StringTable
