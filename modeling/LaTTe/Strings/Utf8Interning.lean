import LaTTe.Data.Interning
import LaTTe.Strings.Utf8Const
import Mathlib.Tactic.NormNum.Prime
import Mathlib.Tactic.Ring

namespace LaTTe.Strings

open LaTTe.Data (Slot)
open LaTTe.Data.OpenAddressing
open LaTTe.Data.Interning

/-! The interning of UTF-8 constants over the runs of the table. -/

def probe (size : Nat) (s : List (BitVec 8)) (n : Nat) : Nat :=
  ((hashUtf8String s).toNat + n * n) % size

section

variable {utf8hash : Nat → Slot Utf8Const} {size : Nat} {s : List (BitVec 8)}

theorem probe_zero : probe size s 0 = (hashUtf8String s).toNat % size :=
  rfl

theorem probe_succ (n : Nat) :
    (probe size s n + (2 * (n + 1) - 1)) % size = probe size s (n + 1) := by
  rw [probe, probe, Nat.mod_add_mod]
  congr 1
  have square : (n + 1) * (n + 1) = n * n + 2 * n + 1 := by ring
  omega

theorem probe_add_size (n : Nat) : probe size s (n + size) = probe size s n := by
  have square : (hashUtf8String s).toNat + (n + size) * (n + size) =
      (hashUtf8String s).toNat + n * n + (2 * n + size) * size := by ring
  rw [probe, probe, square, Nat.add_mul_mod_self_right]

theorem probe_mod (n : Nat) : probe size s (n % size) = probe size s n := by
  induction n using Nat.strong_induction_on with
  | h n ih =>
      by_cases small : n < size
      · rw [Nat.mod_eq_of_lt small]
      · by_cases zero : size = 0
        · rw [zero, Nat.mod_zero]
        · have split : n = n - size + size := by omega
          rw [split, Nat.add_mod_right, probe_add_size]
          exact ih (n - size) (by omega)

theorem probe_lt (positive : 0 < size) (n : Nat) : probe size s n < size :=
  Nat.mod_lt _ positive

/-- What the loop finds is where a search first stops. -/
theorem findFrom_eq (fuel n index : Nat) :
    findFrom utf8hash size s fuel (probe size s n) n = some index ↔
      ∃ m, n ≤ m ∧ m < n + fuel ∧ Stops Utf8Const.data (probe size) utf8hash s m ∧
        (∀ j, n ≤ j → j < m → ¬ Stops Utf8Const.data (probe size) utf8hash s j) ∧
          probe size s m = index := by
  induction fuel generalizing n with
  | zero =>
      refine iff_of_false nofun ?_
      rintro ⟨m, le, less, _⟩
      omega
  | succ fuel ih =>
      have stop : Stops Utf8Const.data (probe size) utf8hash s n →
          (probe size s n = index ↔
            ∃ m, n ≤ m ∧ m < n + (fuel + 1) ∧ Stops Utf8Const.data (probe size) utf8hash s m ∧
              (∀ j, n ≤ j → j < m → ¬ Stops Utf8Const.data (probe size) utf8hash s j) ∧
                probe size s m = index) := by
        intro stops
        constructor
        · intro here
          exact ⟨n, Nat.le_refl n, by omega, stops, fun j le less => by omega, here⟩
        · rintro ⟨m, le, _, _, before, here⟩
          by_cases same : n = m
          · rw [same, here]
          · exact absurd stops (before n (Nat.le_refl n) (by omega))
      have pass : ¬ Stops Utf8Const.data (probe size) utf8hash s n →
          (findFrom utf8hash size s fuel ((probe size s n + (2 * (n + 1) - 1)) % size) (n + 1) =
              some index ↔
            ∃ m, n ≤ m ∧ m < n + (fuel + 1) ∧ Stops Utf8Const.data (probe size) utf8hash s m ∧
              (∀ j, n ≤ j → j < m → ¬ Stops Utf8Const.data (probe size) utf8hash s j) ∧
                probe size s m = index) := by
        intro passes
        rw [probe_succ, ih (n + 1)]
        constructor
        · rintro ⟨m, le, less, stops, before, here⟩
          refine ⟨m, by omega, by omega, stops, fun j le' less' => ?_, here⟩
          by_cases same : j = n
          · rwa [same]
          · exact before j (by omega) less'
        · rintro ⟨m, le, less, stops, before, here⟩
          have apart : m ≠ n := fun same => passes (same ▸ stops)
          exact ⟨m, by omega, by omega, stops, fun j le' less' => before j (by omega) less', here⟩
      rw [findFrom]
      cases slot : utf8hash (probe size s n) with
      | empty =>
          simp only [Option.some.injEq]
          exact stop (.inl slot)
      | deleted =>
          refine pass ?_
          rintro (empty | ⟨a, used, _⟩)
          · rw [slot] at empty
            contradiction
          · rw [slot] at used
            contradiction
      | used m =>
          by_cases same : m.data = s
          · simp only [same, if_true, Option.some.injEq]
            exact stop (.inr ⟨m, slot, same⟩)
          · simp only [same, if_false]
            refine pass ?_
            rintro (empty | ⟨a, used, equal⟩)
            · rw [slot] at empty
              contradiction
            · rw [slot, Slot.used.injEq] at used
              exact same (used ▸ equal)

theorem findUtf8hash_eq (index : Nat) :
    findUtf8hash utf8hash size s = some index ↔
      ∃ m < size, Ends Utf8Const.data (probe size) utf8hash s m ∧ probe size s m = index := by
  rw [findUtf8hash, ← probe_zero, findFrom_eq]
  constructor
  · rintro ⟨m, _, less, stops, before, here⟩
    exact ⟨m, by omega, ⟨stops, fun j less' => before j (Nat.zero_le j) less'⟩, here⟩
  · rintro ⟨m, less, ⟨stops, before⟩, here⟩
    exact ⟨m, Nat.zero_le m, by omega, stops, fun j _ less' => before j less', here⟩

theorem exists_find_iff (positive : 0 < size) :
    (∃ index, findUtf8hash utf8hash size s = some index) ↔
      ∃ n, Stops Utf8Const.data (probe size) utf8hash s n := by
  constructor
  · rintro ⟨index, found⟩
    obtain ⟨m, _, ends, _⟩ := (findUtf8hash_eq index).mp found
    exact ⟨m, ends.1⟩
  · rintro ⟨n, stops⟩
    have early : Stops Utf8Const.data (probe size) utf8hash s (n % size) := by
      unfold Stops at stops ⊢
      rwa [probe_mod]
    obtain ⟨m, le, ends⟩ := exists_ends early
    have less : m < size := Nat.lt_of_le_of_lt le (Nat.mod_lt n positive)
    exact ⟨_, (findUtf8hash_eq _).mpr ⟨m, less, ends, rfl⟩⟩

end

/-! The sizes of the table. -/

def sizes : List Nat :=
  [1021, 2039, 4093, 8191, 16381, 32749, 65521, 131071, 262139, 524287, 1048573, 2097143,
    4194301, 8388593, 16777213]

theorem prime_of_mem_sizes {size : Nat} (member : size ∈ sizes) : size.Prime := by
  have all : ∀ p ∈ sizes, p.Prime := by
    simp only [sizes, List.forall_mem_cons]
    norm_num
  exact all size member

theorem getNextPrime_mem_sizes {size : Nat} (member : size ∈ sizes) (notLast : size < 16777213) :
    getNextPrime (size * 2) ∈ sizes ∧ 4 * size + 12 < 3 * getNextPrime (size * 2) := by
  have all : ∀ p ∈ sizes, p < 16777213 → getNextPrime (p * 2) ∈ sizes ∧
      4 * p + 12 < 3 * getNextPrime (p * 2) := by decide
  exact all size member notLast

/-! The invariant of the table. -/

structure Interning (utf8hash : Nat → Slot Utf8Const) (size count : Nat) : Prop where
  sized : size ∈ sizes
  well : WellPlaced Utf8Const.data (probe size) utf8hash
  inside : ∀ i, utf8hash i ≠ .empty → i < size
  counted : count = (usedBelow utf8hash size).card
  room : 3 * count < 2 * size + 3

def Utf8Table.Sound (table : Utf8Table) : Prop :=
  match table.utf8hash with
  | none => table.size = 0 ∧ table.count = 0
  | some utf8hash => Interning utf8hash table.size table.count

section

variable {utf8hash : Nat → Slot Utf8Const} {size count : Nat}

namespace Interning

theorem prime (interning : Interning utf8hash size count) : size.Prime :=
  prime_of_mem_sizes interning.sized

theorem positive (interning : Interning utf8hash size count) : 0 < size :=
  interning.prime.pos

theorem start : Interning (fun _ => .empty) 1021 0 where
  sized := by decide
  well := .empty
  inside := fun _ absurd => (absurd rfl).elim
  counted := by simp [usedBelow, Slot.isUsed]
  room := by decide

theorem used_inside (interning : Interning utf8hash size count) {i : Nat} {m : Utf8Const}
    (used : utf8hash i = .used m) : i < size :=
  interning.inside i (by rw [used]; exact nofun)

theorem find_used (interning : Interning utf8hash size count) {i : Nat} {m : Utf8Const}
    (used : utf8hash i = .used m) : findUtf8hash utf8hash size m.data = some i := by
  obtain ⟨n, _, stops⟩ := interning.well.stops used
  obtain ⟨index, found⟩ := (exists_find_iff interning.positive).mpr ⟨n, stops⟩
  obtain ⟨place, _, ends, here⟩ := (findUtf8hash_eq index).mp found
  rw [found, ← here, interning.well.ends_used used ends]

theorem insert (interning : Interning utf8hash size count) (few : 3 * count < 2 * size)
    {s : List (BitVec 8)} {index : Nat} (found : findUtf8hash utf8hash size s = some index)
    (free : ∀ m, utf8hash index ≠ .used m) (address : Nat) :
    Interning (Function.update utf8hash index (.used ⟨address, s⟩)) size (count + 1) := by
  obtain ⟨place, _, ends, here⟩ := (findUtf8hash_eq index).mp found
  have below : index < size := here ▸ probe_lt interning.positive place
  have empty : utf8hash (probe size s place) = .empty := by
    rcases ends.1 with empty | ⟨m, used, _⟩
    · exact empty
    · exact absurd (here ▸ used) (free m)
  have absent := interning.well.not_has ends empty
  refine ⟨interning.sized, ?_, ?_, ?_, by omega⟩
  · rw [← here]
    exact @WellPlaced.insert _ _ _ _ _ _ interning.well ⟨address, s⟩ ends.passed absent
  · intro i filled
    by_cases same : i = index
    · exact same ▸ below
    · rw [Function.update_of_ne same] at filled
      exact interning.inside i filled
  · have unused : (utf8hash index).isUsed = false := by
      rw [← here, empty]
      rfl
    rw [card_usedBelow_insert below unused, ← interning.counted]

theorem delete (interning : Interning utf8hash size count) {i : Nat} {m : Utf8Const}
    (used : utf8hash i = .used m) :
    Interning (Function.update utf8hash i .deleted) size (count - 1) := by
  have below := interning.used_inside used
  have isUsed : (utf8hash i).isUsed = true := Slot.isUsed_iff.mpr ⟨m, used⟩
  have card := card_usedBelow_delete below isUsed
  have counted := interning.counted
  have room := interning.room
  refine ⟨interning.sized, interning.well.delete i, fun j filled => ?_, by omega, by omega⟩
  by_cases same : j = i
  · exact same ▸ below
  · rw [Function.update_of_ne same] at filled
    exact interning.inside j filled

end Interning

theorem exists_empty_of_few (prime : size.Prime)
    (few : (filledBelow utf8hash size).card < (size + 1) / 2) (s : List (BitVec 8)) :
    ∃ n, utf8hash (probe size s n) = .empty := by
  obtain ⟨n, _, empty⟩ := exists_empty (probe_lt (s := s) prime.pos)
    (quadratic_injOn prime (hashUtf8String s).toNat) few
  exact ⟨n, empty⟩

/-! A growth. -/

variable {old new : Nat → Slot Utf8Const} {done : List Nat} {i : Nat}

theorem exists_find_of_copied (copied : Copied Utf8Const.data (probe size) old size done new)
    (prime : size.Prime) (few : (done.countP fun i => (old i).isUsed) < (size + 1) / 2)
    (s : List (BitVec 8)) : ∃ index, findUtf8hash new size s = some index := by
  obtain ⟨n, _, empty⟩ := exists_empty (probe_lt (s := s) prime.pos)
    (quadratic_injOn prime (hashUtf8String s).toNat) (copied.filled ▸ copied.counted ▸ few)
  exact (exists_find_iff prime.pos).mpr ⟨n, .inl empty⟩

theorem rehashSlot_enters {todo : List Nat} (prime : size.Prime)
    (unmarked : ∀ i ∈ todo, old i ≠ .deleted) :
    Copied.Enters Utf8Const.data (probe size) old size ((size + 1) / 2) (rehashSlot old size)
      todo where
  skips := by
    intro new i member unused
    cases slot : old i with
    | empty => simp only [rehashSlot, slot]
    | deleted => exact absurd slot (unmarked i member)
    | used m =>
        rw [slot] at unused
        contradiction
  enters := by
    intro done new copied few i m used absent
    obtain ⟨index, found⟩ := exists_find_of_copied copied prime few m.data
    obtain ⟨place, _, ends, here⟩ := (findUtf8hash_eq index).mp found
    refine ⟨place, by simp only [rehashSlot, used, found, here], ?_, ends.passed,
      probe_lt prime.pos place⟩
    cases ends.1 with
    | inl empty => exact empty
    | inr other =>
        obtain ⟨m', used', equal⟩ := other
        exact absurd ⟨_, m', used', equal⟩ absent

theorem Interning.rehash (interning : Interning utf8hash size count)
    (unmarked : ∀ i < size, utf8hash i ≠ .deleted) (notLast : size < 16777213) :
    ∃ new, (List.range size).reverse.foldlM (rehashSlot utf8hash (getNextPrime (size * 2)))
        (fun _ => .empty) = .ok new ∧
      Interning new (getNextPrime (size * 2)) count ∧ 3 * count < 2 * getNextPrime (size * 2) ∧
        (∀ m, (∃ i, new i = .used m) ↔ ∃ i, utf8hash i = .used m) ∧
          (filledBelow new (getNextPrime (size * 2))).card + 1 <
            (getNextPrime (size * 2) + 1) / 2 := by
  obtain ⟨sized, larger⟩ := getNextPrime_mem_sizes interning.sized notLast
  have prime := prime_of_mem_sizes sized
  have room := interning.room
  have counted := interning.counted
  obtain ⟨new, result, copied⟩ := Copied.all (rehashSlot_enters prime fun i member =>
      unmarked i (List.mem_range.mp (List.mem_reverse.mp member)))
    interning.well.unique (show (usedBelow utf8hash size).card ≤ _ by omega)
  have card := copied.card
  refine ⟨new, result, ⟨sized, copied.well, copied.inside, by omega, by omega⟩, by omega,
    copied.kept interning.inside, ?_⟩
  rw [copied.filled]
  omega

theorem Interning.rehash_marked (interning : Interning utf8hash size count) {i : Nat}
    (below : i < size) (marked : utf8hash i = .deleted) (notLast : size < 16777213) :
    (List.range size).reverse.foldlM (rehashSlot utf8hash (getNextPrime (size * 2)))
      (fun _ => .empty) = .error .marker := by
  obtain ⟨sized, larger⟩ := getNextPrime_mem_sizes interning.sized notLast
  have room := interning.room
  have counted := interning.counted
  have some : ((List.range size).reverse.find? fun j => utf8hash j = .deleted).isSome = true :=
    List.find?_isSome.mpr
      ⟨i, List.mem_reverse.mpr (List.mem_range.mpr below), decide_eq_true marked⟩
  obtain ⟨j, found⟩ := Option.isSome_iff_exists.mp some
  obtain ⟨deleted, before, after, split, unmarked⟩ := List.find?_eq_some_iff_append.mp found
  have deleted : utf8hash j = .deleted := of_decide_eq_true deleted
  have few : (before.countP fun i => (utf8hash i).isUsed) ≤
      (getNextPrime (size * 2) + 1) / 2 := by
    have total := card_usedBelow utf8hash size
    rw [← List.countP_reverse, split, List.countP_append] at total
    omega
  have apart : before.Nodup := by
    have all : (List.range size).reverse.Nodup := List.nodup_reverse.mpr List.nodup_range
    rw [split] at all
    exact (List.nodup_append.mp all).1
  have start : Copied Utf8Const.data (probe (getNextPrime (size * 2))) utf8hash
      (getNextPrime (size * 2)) [] fun _ => .empty := .start _ _
  obtain ⟨last, result, _⟩ := start.run before
    (rehashSlot_enters (prime_of_mem_sizes sized) fun i member => by
      simpa using unmarked i member)
    interning.well.unique few apart
  rw [split, List.foldlM_append, result]
  change (j :: after).foldlM (rehashSlot utf8hash (getNextPrime (size * 2))) last = _
  rw [List.foldlM_cons, rehashSlot, deleted]
  rfl

theorem rehashSlot_marker {todo : List Nat} (size : Nat) (marked : i ∈ todo)
    (deleted : old i = .deleted) (start : Nat → Slot Utf8Const) :
    ∃ failure, todo.foldlM (rehashSlot old size) start = .error failure := by
  induction todo generalizing start with
  | nil => contradiction
  | cons j rest ih =>
      rw [List.foldlM_cons]
      cases entered : rehashSlot old size start j with
      | error failure => exact ⟨failure, rfl⟩
      | ok next =>
          rcases List.mem_cons.mp marked with rfl | later
          · simp only [rehashSlot, deleted] at entered
            contradiction
          · exact ih later next

end

/-! The calls. -/

namespace Utf8Table

def Has (table : Utf8Table) (m : Utf8Const) : Prop :=
  ∃ utf8hash i, table.utf8hash = some utf8hash ∧ utf8hash i = .used m

def Finds (table : Utf8Table) (m : Utf8Const) : Prop :=
  ∃ utf8hash i, table.utf8hash = some utf8hash ∧
    findUtf8hash utf8hash table.size m.data = some i ∧ utf8hash i = .used m

/-- A call for the string is carried out: the table has no mark if it has to grow, and
otherwise the search for the string comes to an end. -/
def Serves (table : Utf8Table) (s : List (BitVec 8)) : Prop :=
  ∀ utf8hash, table.utf8hash = some utf8hash →
    if table.isFull then ∀ i < table.size, utf8hash i ≠ .deleted
    else ∃ n, Stops Utf8Const.data (probe table.size) utf8hash s n

def Grows (table : Utf8Table) : Prop :=
  table.isFull → table.size < 16777213

end Utf8Table

section

variable {table next : Utf8Table} {s : List (BitVec 8)} {address : Nat} {m : Utf8Const}

theorem Utf8Table.Sound.finds (sound : table.Sound) (has : table.Has m) : table.Finds m := by
  obtain ⟨utf8hash, i, made, used⟩ := has
  unfold Utf8Table.Sound at sound
  rw [made] at sound
  exact ⟨utf8hash, i, made, sound.find_used used, used⟩

/-- The table that a constant is looked for in, which is less than half full after a
growth. -/
theorem Utf8Table.Sound.prepare (sound : table.Sound) (serves : table.Serves s)
    (grows : table.Grows) :
    ∃ utf8hash size, LaTTe.Strings.prepare table = .ok ⟨some utf8hash, size, table.count⟩ ∧
      Interning utf8hash size table.count ∧ 3 * table.count < 2 * size ∧
      (∀ m, (∃ i, utf8hash i = .used m) ↔ table.Has m) ∧
      (∃ n, Stops Utf8Const.data (probe size) utf8hash s n) ∧
      (table.isFull ∧ (filledBelow utf8hash size).card + 1 < (size + 1) / 2 ∨
        ¬ table.isFull ∧ table.utf8hash = some utf8hash ∧ table.size = size) := by
  obtain ⟨made, size, count⟩ := table
  cases made with
  | none =>
      obtain ⟨rfl, rfl⟩ : size = 0 ∧ count = 0 := sound
      have full : Utf8Table.isFull ⟨none, 0, 0⟩ := Nat.le_refl 0
      refine ⟨fun _ => .empty, 1021, by rw [LaTTe.Strings.prepare, if_pos full]; rfl, .start, by decide, fun m => ?_,
        ⟨0, .inl rfl⟩, .inl ⟨full, ?_⟩⟩
      · constructor
        · rintro ⟨_, absurd⟩
          contradiction
        · rintro ⟨_, _, absurd, _⟩
          contradiction
      · simp [filledBelow, Slot.isEmpty]
  | some utf8hash =>
      have interning : Interning utf8hash size count := sound
      have serves := serves utf8hash rfl
      have same : ∀ m, (∃ i, utf8hash i = .used m) ↔
          Utf8Table.Has ⟨some utf8hash, size, count⟩ m := by
        intro m
        constructor
        · rintro ⟨i, used⟩
          exact ⟨utf8hash, i, rfl, used⟩
        · rintro ⟨_, i, made, used⟩
          cases made
          exact ⟨i, used⟩
      by_cases full : Utf8Table.isFull ⟨some utf8hash, size, count⟩
      · rw [if_pos full] at serves
        obtain ⟨new, result, interning', few, kept, half⟩ :=
          interning.rehash serves (grows full)
        obtain ⟨n, empty⟩ := exists_empty_of_few interning'.prime (Nat.lt_of_succ_lt half) s
        refine ⟨new, getNextPrime (size * 2), ?_, interning', few,
          fun m => (kept m).trans (same m), ⟨n, .inl empty⟩, .inl ⟨full, half⟩⟩
        rw [LaTTe.Strings.prepare, if_pos full]
        simp only [rehash, result]
        rfl
      · rw [if_neg full] at serves
        exact ⟨utf8hash, size, by rw [LaTTe.Strings.prepare, if_neg full], interning,
          Nat.lt_of_not_le full, same, serves, .inr ⟨full, rfl, rfl⟩⟩

theorem makeUtf8Const_eq {ready : Utf8Table} (prepared : prepare table = .ok ready)
    (s : List (BitVec 8)) (address : Nat) :
    makeUtf8Const table s address = enterUtf8Const ready s address := by
  rw [makeUtf8Const, prepared]
  rfl

/-- A call returns the constant of its string, which is a new one if there was none. -/
theorem Utf8Table.Sound.make (sound : table.Sound) (serves : table.Serves s)
    (grows : table.Grows) (short : s.length < 2 ^ 16) (address : Nat) :
    ∃ m next, makeUtf8Const table s address = .ok (m, next) ∧ next.Sound ∧ m.data = s ∧
      (table.Has m ∨ m.address = address ∧ ∀ m', table.Has m' → m'.data ≠ s) ∧
      ∀ m', next.Has m' ↔ table.Has m' ∨ m' = m := by
  obtain ⟨utf8hash, size, ready, interning, few, same, ⟨n, stops⟩, _⟩ :=
    sound.prepare serves grows
  obtain ⟨index, found⟩ := (exists_find_iff interning.positive).mpr ⟨n, stops⟩
  obtain ⟨place, _, ends, here⟩ := (findUtf8hash_eq index).mp found
  have call := makeUtf8Const_eq ready s address
  have has : ∀ m', Utf8Table.Has ⟨some utf8hash, size, table.count⟩ m' ↔ table.Has m' := by
    intro m'
    rw [← same m']
    constructor
    · rintro ⟨_, i, made, used⟩
      cases made
      exact ⟨i, used⟩
    · rintro ⟨i, used⟩
      exact ⟨utf8hash, i, rfl, used⟩
  cases slot : utf8hash index with
  | used m =>
      have equal : m.data = s := by
        rcases ends.1 with empty | ⟨m', used, equal⟩
        · rw [here, slot] at empty
          contradiction
        · rw [here, slot, Slot.used.injEq] at used
          rw [used, equal]
      simp only [enterUtf8Const, found, slot] at call
      have present := (same m).mp ⟨index, slot⟩
      refine ⟨m, _, call, interning, equal, .inl present, fun m' => ?_⟩
      rw [has m']
      exact ⟨.inl, fun either => either.elim id fun same => same ▸ present⟩
  | _ =>
      have free : ∀ m, utf8hash index ≠ .used m := by
        intro m used
        rw [slot] at used
        contradiction
      have empty : utf8hash (probe size s place) = .empty := by
        rcases ends.1 with empty | ⟨m, used, _⟩
        · exact empty
        · exact absurd (here ▸ used) (free m)
      simp only [enterUtf8Const, found, slot, stored_eq short] at call
      refine ⟨⟨address, s⟩, _, call, interning.insert few found free address, rfl,
        .inr ⟨rfl, fun m' present equal => ?_⟩, fun m' => ?_⟩
      · obtain ⟨i, used⟩ := (same m').mpr present
        exact interning.well.not_has ends empty ⟨i, m', used, equal⟩
      · rw [← same m']
        constructor
        · rintro ⟨_, i, made, used⟩
          cases made
          by_cases last : i = index
          · rw [last, Function.update_self, Slot.used.injEq] at used
            exact .inr used.symm
          · rw [Function.update_of_ne last] at used
            exact .inl ⟨i, used⟩
        · rintro (⟨i, used⟩ | rfl)
          · have apart : i ≠ index := fun last => free m' (last ▸ used)
            exact ⟨_, i, rfl, by rw [Function.update_of_ne apart, used]⟩
          · exact ⟨_, index, rfl, Function.update_self _ _ _⟩

theorem Utf8Table.Sound.finalize (sound : table.Sound) (has : table.Has m) :
    ∃ next, finalizeUtf8const table m = .ok next ∧ next.Sound ∧
      ∀ m', next.Has m' ↔ table.Has m' ∧ m' ≠ m := by
  obtain ⟨made, size, count⟩ := table
  obtain ⟨utf8hash, i, equal, used⟩ := has
  obtain rfl : made = some utf8hash := equal
  have interning : Interning utf8hash size count := sound
  have call : finalizeUtf8const ⟨some utf8hash, size, count⟩ m =
      .ok ⟨some (Function.update utf8hash i .deleted), size, count - 1⟩ := by
    simp only [finalizeUtf8const, interning.find_used used, used]
  refine ⟨_, call, interning.delete used, fun m' => ?_⟩
  constructor
  · rintro ⟨_, j, made, used'⟩
    cases made
    by_cases same : j = i
    · rw [same, Function.update_self] at used'
      contradiction
    · rw [Function.update_of_ne same] at used'
      refine ⟨⟨utf8hash, j, rfl, used'⟩, fun equal => same ?_⟩
      exact interning.well.unique j i m' m used' used (congrArg _ equal)
  · rintro ⟨⟨_, j, made, used'⟩, apart⟩
    cases made
    have other : j ≠ i := by
      rintro rfl
      rw [used, Slot.used.injEq] at used'
      exact apart used'.symm
    exact ⟨_, j, rfl, by rw [Function.update_of_ne other, used']⟩

theorem Utf8Table.Sound.make_returns (sound : table.Sound) (serves : table.Serves s)
    (grows : table.Grows) (address : Nat) :
    ∃ result, makeUtf8Const table s address = .ok result := by
  obtain ⟨utf8hash, size, ready, interning, _, _, ⟨n, stops⟩, _⟩ := sound.prepare serves grows
  obtain ⟨index, found⟩ := (exists_find_iff interning.positive).mpr ⟨n, stops⟩
  rw [makeUtf8Const_eq ready]
  simp only [enterUtf8Const, found]
  split <;> exact ⟨_, rfl⟩

theorem Utf8Table.Sound.serves_of_make (sound : table.Sound)
    (returns : ∃ result, makeUtf8Const table s address = .ok result) : table.Serves s := by
  obtain ⟨result, returns⟩ := returns
  intro utf8hash made
  obtain ⟨_, size, count⟩ := table
  obtain rfl := made
  have interning : Interning utf8hash size count := sound
  split
  · rename_i full
    intro i below deleted
    have stopped : ∃ failure, rehash ⟨some utf8hash, size, count⟩ = .error failure := by
      obtain ⟨failure, failed⟩ := rehashSlot_marker (getNextPrime (size * 2))
        (List.mem_reverse.mpr (List.mem_range.mpr below)) deleted fun _ => .empty
      exact ⟨failure, by simp only [rehash, failed]; rfl⟩
    obtain ⟨failure, stopped⟩ := stopped
    rw [makeUtf8Const, LaTTe.Strings.prepare, if_pos full, stopped] at returns
    contradiction
  · rename_i notFull
    rw [makeUtf8Const, LaTTe.Strings.prepare, if_neg notFull] at returns
    cases found : findUtf8hash utf8hash size s with
    | some index => exact (exists_find_iff interning.positive).mp ⟨index, found⟩
    | none =>
        simp only [bind, Except.bind, enterUtf8Const, found] at returns
        contradiction

end

/-! The runs of the table. -/

inductive Run (allowed : Utf8Table → List (BitVec 8) → Prop) : List (Event (List (BitVec 8)) Utf8Const) → Utf8Table → Prop
  | start : Run allowed [] .initial
  | make {trace : List (Event (List (BitVec 8)) Utf8Const)} {table next : Utf8Table} (s : List (BitVec 8)) (address : Nat)
      (m : Utf8Const) (run : Run allowed trace table) (permitted : allowed table s)
      (fresh : ∀ m', table.Has m' → m'.address ≠ address)
      (called : makeUtf8Const table s address = .ok (m, next)) :
      Run allowed (.made s m :: trace) next
  | finalize {trace : List (Event (List (BitVec 8)) Utf8Const)} {table next : Utf8Table} (m : Utf8Const)
      (run : Run allowed trace table) (has : table.Has m)
      (called : finalizeUtf8const table m = .ok next) : Run allowed (.removed m :: trace) next

def Careful (table : Utf8Table) (s : List (BitVec 8)) : Prop :=
  table.Serves s ∧ table.Grows ∧ s.length < 2 ^ 16

section

variable {trace : List (Event (List (BitVec 8)) Utf8Const)} {table : Utf8Table} {m : Utf8Const}

theorem not_has_initial : ¬ Utf8Table.initial.Has m :=
  fun ⟨_, _, absurd, _⟩ => nomatch absurd

theorem Run.kept (run : Run Careful trace table) :
    table.Sound ∧ Kept Utf8Const.data Utf8Const.address table.Has trace := by
  induction run with
  | start => exact ⟨⟨rfl, rfl⟩, .start fun m => not_has_initial⟩
  | make s address m run permitted fresh called ih =>
      obtain ⟨sound, kept⟩ := ih
      obtain ⟨m, next, called', sound', data, origin, has⟩ :=
        sound.make permitted.1 permitted.2.1 permitted.2.2 address
      obtain ⟨rfl, rfl⟩ := Prod.mk.inj (Except.ok.inj (called'.symm.trans called))
      refine ⟨sound', kept.made data (origin.imp id And.right) (fun m' present equal => ?_) has⟩
      cases origin with
      | inl present' => exact kept.addresses m' m present present' equal
      | inr new => exact absurd (equal.trans new.1) (fresh m' present)
  | finalize m run has called ih =>
      obtain ⟨sound, kept⟩ := ih
      obtain ⟨next, called', sound', left⟩ := sound.finalize has
      obtain rfl := Except.ok.inj (called'.symm.trans called)
      exact ⟨sound', kept.removed left⟩

/-- In every run of calls that the table serves, constants are interned, and those that were
not removed are found; a call is served exactly if the table has no mark where it grows and
the search ends where it does not. -/
theorem utf8Consts_interned (run : Run Careful trace table) :
    Interns Utf8Const.address trace ∧ (∀ m, Live trace m → table.Finds m) ∧
      ∀ s address, table.Grows →
        ((∃ result, makeUtf8Const table s address = .ok result) ↔ table.Serves s) := by
  obtain ⟨sound, kept⟩ := run.kept
  refine ⟨kept.interns, fun m live => sound.finds (kept.live m live),
    fun s address grows => ⟨sound.serves_of_make, fun serves => ?_⟩⟩
  exact sound.make_returns serves grows address

end

/-! A table with a mark that has to grow. -/

section

variable {utf8hash : Nat → Slot Utf8Const} {size : Nat} {s : List (BitVec 8)} {m : Utf8Const}

theorem find_first (positive : 0 < size)
    (stops : Stops Utf8Const.data (probe size) utf8hash s 0) :
    findUtf8hash utf8hash size s = some ((hashUtf8String s).toNat % size) :=
  (findUtf8hash_eq _).mpr ⟨0, positive, ⟨stops, nofun⟩, rfl⟩

end

def word (i : Nat) : List (BitVec 8) :=
  [BitVec.ofNat 8 (i / 37), BitVec.ofNat 8 (i % 37)]

theorem stored_word (i : Nat) : stored (word i) = word i :=
  rfl

theorem hash_word : ∀ i < 1021, (hashUtf8String (word i)).toNat % 1021 = i := by
  decide +kernel

def markedSlots (n j : Nat) : Slot Utf8Const :=
  if j = 1020 then .deleted else if j < n then .used ⟨j + 1, word j⟩ else .empty

def marked (n : Nat) : Utf8Table :=
  ⟨some (markedSlots n), 1021, n⟩

theorem markedSlots_free {n : Nat} (small : n < 1020) : markedSlots n n = .empty := by
  rw [markedSlots, if_neg (by omega), if_neg (by omega)]

theorem update_markedSlots {n : Nat} (small : n < 1020) :
    Function.update (markedSlots n) n (.used ⟨n + 1, word n⟩) = markedSlots (n + 1) := by
  funext j
  by_cases same : j = n
  · rw [same, Function.update_self, markedSlots, if_neg (by omega), if_pos (by omega)]
  · have below : j < n + 1 ↔ j < n := by omega
    rw [Function.update_of_ne same]
    simp only [markedSlots, below]

theorem make_free_word {slots : Nat → Slot Utf8Const} {i count : Nat} (small : i < 1021)
    (free : slots i = .empty) (notFull : 3 * count < 2 * 1021) (address : Nat) :
    makeUtf8Const ⟨some slots, 1021, count⟩ (word i) address =
      .ok (⟨address, word i⟩,
        ⟨some (Function.update slots i (.used ⟨address, word i⟩)), 1021, count + 1⟩) := by
  have index := hash_word i small
  have found : findUtf8hash slots 1021 (word i) = some i := by
    rw [find_first (by decide) (.inl (by rw [probe_zero, index]; exact free)), index]
  have notFull : ¬ Utf8Table.isFull ⟨some slots, 1021, count⟩ := Nat.not_le.mpr notFull
  rw [makeUtf8Const, prepare, if_neg notFull]
  simp only [bind, Except.bind, enterUtf8Const, found, free, stored_word]

theorem make_word {n : Nat} (small : n < 681) :
    makeUtf8Const (marked n) (word n) (n + 1) = .ok (⟨n + 1, word n⟩, marked (n + 1)) := by
  have called := make_free_word (show n < 1021 by omega)
    (markedSlots_free (show n < 1020 by omega)) (show 3 * n < 2 * 1021 by omega) (n + 1)
  rwa [update_markedSlots (show n < 1020 by omega)] at called

def single (i : Nat) : Nat → Slot Utf8Const :=
  Function.update (fun _ => .empty) i (.used ⟨1, word i⟩)

theorem single_used (i : Nat) : single i i = .used ⟨1, word i⟩ :=
  Function.update_self _ _ _

theorem single_stops {i : Nat} (small : i < 1021) :
    Stops Utf8Const.data (probe 1021) (single i) (word i) 0 := by
  refine .inr ⟨⟨1, word i⟩, ?_, rfl⟩
  rw [probe_zero, hash_word i small, single_used]

theorem find_single {i : Nat} (small : i < 1021) :
    findUtf8hash (single i) 1021 (word i) = some i := by
  rw [find_first (by decide) (single_stops small), hash_word i small]

theorem make_first {i : Nat} (small : i < 1021) :
    makeUtf8Const .initial (word i) 1 = .ok (⟨1, word i⟩, ⟨some (single i), 1021, 1⟩) := by
  have full : Utf8Table.initial.isFull := Nat.le_refl 0
  have found : findUtf8hash (fun _ => .empty) 1021 (word i) = some i := by
    rw [find_first (by decide) (.inl rfl), hash_word i small]
  rw [makeUtf8Const, prepare, if_pos full]
  simp only [bind, Except.bind, rehash, Utf8Table.initial, enterUtf8Const, found, stored_word]
  rfl

theorem run_first {allowed : Utf8Table → List (BitVec 8) → Prop} {i : Nat} (small : i < 1021)
    (permitted : allowed .initial (word i)) :
    Run allowed [.made (word i) ⟨1, word i⟩] ⟨some (single i), 1021, 1⟩ :=
  .make _ 1 _ .start permitted (fun _ ⟨_, _, absurd, _⟩ => nomatch absurd) (make_first small)

theorem run_marked {n : Nat} (small : n ≤ 681) :
    ∃ trace, Run (fun _ _ => True) trace (marked n) := by
  induction n with
  | zero =>
      have removed : finalizeUtf8const ⟨some (single 1020), 1021, 1⟩ ⟨1, word 1020⟩ =
          .ok (marked 0) := by
        have cleared : Function.update (single 1020) 1020 .deleted = markedSlots 0 := by
          funext j
          by_cases same : j = 1020
          · rw [same, Function.update_self]
            rfl
          · rw [Function.update_of_ne same, markedSlots, if_neg same, if_neg (Nat.not_lt_zero j)]
            exact Function.update_of_ne same _ _
        simp only [finalizeUtf8const, find_single (show 1020 < 1021 by decide), single_used,
          cleared]
        rfl
      exact ⟨_, (run_first (by decide) trivial).finalize _
        ⟨single 1020, 1020, rfl, single_used 1020⟩ removed⟩
  | succ n ih =>
      obtain ⟨trace, run⟩ := ih (by omega)
      refine ⟨_, run.make (word n) (n + 1) _ trivial ?_ (make_word (by omega))⟩
      rintro m ⟨_, j, made, used⟩
      cases made
      have below : j < n ∧ m.address = j + 1 := by
        unfold markedSlots at used
        split at used
        · contradiction
        · split at used
          · rename_i below
            exact ⟨below, congrArg Utf8Const.address (Slot.used.inj used).symm⟩
          · contradiction
      omega

theorem growth_follows_marker :
    ∃ trace table s address, Run (fun _ _ => True) trace table ∧
      makeUtf8Const table s address = .error .marker := by
  obtain ⟨trace, run⟩ := run_marked (Nat.le_refl 681)
  refine ⟨trace, marked 681, [], 1000, run, ?_⟩
  have full : (marked 681).isFull := by decide
  have order : (List.range 1021).reverse = 1020 :: (List.range 1020).reverse := by
    rw [List.range_succ, List.reverse_append, List.reverse_singleton, List.singleton_append]
  rw [makeUtf8Const, prepare, if_pos full]
  simp only [rehash, marked, order, List.foldlM_cons, rehashSlot]
  rfl

theorem utf8Consts_interned_twice :
    ∃ trace table, Run Careful trace table ∧ trace.length = 2 ∧ Interns Utf8Const.address trace ∧
      (∀ m, Live trace m → table.Finds m) ∧
      ∀ s address, table.Grows →
        ((∃ result, makeUtf8Const table s address = .ok result) ↔ table.Serves s) := by
  have first : Run Careful [.made (word 0) ⟨1, word 0⟩] ⟨some (single 0), 1021, 1⟩ :=
    run_first (by decide) ⟨(fun _ absurd => nomatch absurd), fun _ => by decide, by decide⟩
  have notFull : ¬ Utf8Table.isFull ⟨some (single 0), 1021, 1⟩ := by decide
  have served : Utf8Table.Serves ⟨some (single 0), 1021, 1⟩ (word 0) := by
    intro slots made
    cases made
    rw [if_neg notFull]
    exact ⟨0, single_stops (by decide)⟩
  have again : makeUtf8Const ⟨some (single 0), 1021, 1⟩ (word 0) 2 =
      .ok (⟨1, word 0⟩, ⟨some (single 0), 1021, 1⟩) := by
    rw [makeUtf8Const, prepare, if_neg notFull]
    simp only [bind, Except.bind, enterUtf8Const, find_single (show 0 < 1021 by decide),
      single_used]
  have fresh : ∀ m, Utf8Table.Has ⟨some (single 0), 1021, 1⟩ m → m.address ≠ 2 := by
    rintro m ⟨_, j, made, used⟩
    cases made
    by_cases same : j = 0
    · rw [same, single_used, Slot.used.injEq] at used
      rw [← used]
      decide
    · rw [single, Function.update_of_ne same] at used
      contradiction
  have run := first.make (word 0) 2 _ ⟨served, fun full => absurd full notFull, by decide⟩
    fresh again
  exact ⟨_, _, run, rfl, utf8Consts_interned run⟩

end LaTTe.Strings
