import LaTTe.Strings.Utf8Interning

namespace LaTTe.Strings

open LaTTe.Data (Slot)
open LaTTe.Data.OpenAddressing
open LaTTe.Data.Interning

/-! Whether the searches of the table come to an end. -/

section

variable {utf8hash : Nat → Slot Utf8Const} {size count : Nat} {s : List (BitVec 8)}

def Open (utf8hash : Nat → Slot Utf8Const) (size : Nat) : Prop :=
  ∀ s, ∃ n, utf8hash (probe size s n) = .empty

def Place (utf8hash : Nat → Slot Utf8Const) (size : Nat) (s : List (BitVec 8)) (i : Nat) :
    Prop :=
  ∃ n, probe size s n = i ∧ utf8hash i = .empty ∧ ∀ m < n, utf8hash (probe size s m) ≠ .empty

theorem hashUtf8String_zeros (count : Nat) (s : List (BitVec 8)) :
    hashUtf8String (List.replicate count 0 ++ s) = hashUtf8String s := by
  induction count with
  | zero => rfl
  | succ count ih => exact ih

namespace Interning

theorem exists_longer (utf8hash : Nat → Slot Utf8Const) (size : Nat) :
    ∃ length, ∀ i < size, ∀ m, utf8hash i = .used m → m.data.length < length := by
  induction size with
  | zero => exact ⟨0, nofun⟩
  | succ size ih =>
      obtain ⟨length, longer⟩ := ih
      cases slot : utf8hash size with
      | used last =>
          refine ⟨max length (last.data.length + 1), fun i below m used => ?_⟩
          cases Nat.lt_succ_iff_lt_or_eq.mp below with
          | inl below => exact Nat.lt_of_lt_of_le (longer i below m used) (Nat.le_max_left _ _)
          | inr same =>
              rw [same, slot, Slot.used.injEq] at used
              exact used ▸ Nat.le_max_right _ _
      | _ =>
          refine ⟨length, fun i below m used => ?_⟩
          cases Nat.lt_succ_iff_lt_or_eq.mp below with
          | inl below => exact longer i below m used
          | inr same =>
              rw [same, slot] at used
              contradiction

theorem exists_absent (interning : Interning utf8hash size count) (s : List (BitVec 8)) :
    ∃ absent, probe size absent = probe size s ∧ ¬ Has Utf8Const.data utf8hash absent := by
  obtain ⟨length, longer⟩ := exists_longer utf8hash size
  refine ⟨List.replicate length 0 ++ s, ?_, ?_⟩
  · funext n
    rw [probe, probe, hashUtf8String_zeros]
  · rintro ⟨i, m, used, same⟩
    have less := longer i (interning.used_inside used) m used
    rw [same, List.length_append, List.length_replicate] at less
    omega

theorem ends_iff (interning : Interning utf8hash size count) :
    (∀ s, ∃ n, Stops Utf8Const.data (probe size) utf8hash s n) ↔ Open utf8hash size := by
  constructor
  · intro ends s
    obtain ⟨absent, same, outside⟩ := interning.exists_absent s
    obtain ⟨n, stops⟩ := ends absent
    cases stops with
    | inl empty => exact ⟨n, same ▸ empty⟩
    | inr here =>
        obtain ⟨m, used, equal⟩ := here
        exact absurd ⟨_, m, used, equal⟩ outside
  · intro isOpen s
    obtain ⟨n, empty⟩ := isOpen s
    exact ⟨n, .inl empty⟩

end Interning

theorem Open.delete (isOpen : Open utf8hash size) {i : Nat} (filled : utf8hash i ≠ .empty) :
    Open (Function.update utf8hash i .deleted) size := by
  intro s
  obtain ⟨n, empty⟩ := isOpen s
  have apart : probe size s n ≠ i := fun same => filled (same ▸ empty)
  exact ⟨n, by rw [Function.update_of_ne apart, empty]⟩

theorem open_insert_iff (i : Nat) (m : Utf8Const) :
    Open (Function.update utf8hash i (.used m)) size ↔
      ∀ s, ∃ n, utf8hash (probe size s n) = .empty ∧ probe size s n ≠ i := by
  apply forall_congr'
  intro s
  apply exists_congr
  intro n
  constructor
  · intro empty
    by_cases same : probe size s n = i
    · rw [same, Function.update_self] at empty
      contradiction
    · rw [Function.update_of_ne same] at empty
      exact ⟨empty, same⟩
  · intro ⟨empty, apart⟩
    rw [Function.update_of_ne apart, empty]

theorem Place.unique {i j : Nat} (first : Place utf8hash size s i)
    (second : Place utf8hash size s j) : i = j := by
  obtain ⟨n, rfl, empty, before⟩ := first
  obtain ⟨m, rfl, empty', before'⟩ := second
  rcases Nat.lt_trichotomy n m with less | same | greater
  · exact absurd empty (before' n less)
  · rw [same]
  · exact absurd empty' (before m greater)

theorem spares_of_few (prime : size.Prime)
    (half : (filledBelow utf8hash size).card + 1 < (size + 1) / 2) (s other : List (BitVec 8)) :
    ∃ n, utf8hash (probe size other n) = .empty ∧
      ¬ Place utf8hash size s (probe size other n) := by
  by_cases exists_place : ∃ i, Place utf8hash size s i
  · obtain ⟨i, place⟩ := exists_place
    have card := card_filledBelow_update utf8hash size i (.used ⟨0, s⟩)
    have isOpen := exists_empty_of_few prime (Nat.lt_of_le_of_lt card half)
    obtain ⟨n, empty, apart⟩ := (open_insert_iff i _).mp isOpen other
    exact ⟨n, empty, fun same => apart (same.unique place)⟩
  · obtain ⟨n, empty⟩ := exists_empty_of_few prime (Nat.lt_of_succ_lt half) other
    exact ⟨n, empty, fun place => exists_place ⟨_, place⟩⟩

end

namespace Utf8Table

def Ending (table : Utf8Table) : Prop :=
  ∀ utf8hash, table.utf8hash = some utf8hash →
    ∀ s, ∃ n, Stops Utf8Const.data (probe table.size) utf8hash s n

/-- The string is in the table, or its slot is not the last empty one for any string.  A
table that grows has empty slots enough. -/
def Spares (table : Utf8Table) (s : List (BitVec 8)) : Prop :=
  ∀ utf8hash, table.utf8hash = some utf8hash → ¬ table.isFull →
    Data.OpenAddressing.Has Utf8Const.data utf8hash s ∨
      ∀ other, ∃ n, utf8hash (probe table.size other n) = .empty ∧
        ¬ Place utf8hash table.size s (probe table.size other n)

end Utf8Table

def Sparing (table : Utf8Table) (s : List (BitVec 8)) : Prop :=
  table.Spares s ∧ table.Grows ∧ s.length < 2 ^ 16

section

variable {table next : Utf8Table} {s : List (BitVec 8)} {address : Nat} {m : Utf8Const}

namespace Utf8Table

theorem Sound.ending_iff {utf8hash : Nat → Slot Utf8Const} {size count : Nat}
    (sound : Sound ⟨some utf8hash, size, count⟩) :
    Ending ⟨some utf8hash, size, count⟩ ↔ Open utf8hash size := by
  have interning : Interning utf8hash size count := sound
  rw [← interning.ends_iff]
  constructor
  · exact fun ending => ending utf8hash rfl
  · rintro ends _ ⟨⟩
    exact ends

theorem Ending.serves (ending : table.Ending) (s : List (BitVec 8))
    (unmarked : ∀ utf8hash, table.utf8hash = some utf8hash → table.isFull →
      ∀ i < table.size, utf8hash i ≠ .deleted) : table.Serves s := by
  intro utf8hash made
  split
  · exact unmarked utf8hash made ‹_›
  · exact ending utf8hash made s

theorem Ending.finalize_ends (ending : table.Ending) (sound : table.Sound) (m : Utf8Const) :
    finalizeUtf8const table m ≠ .error .endless := by
  obtain ⟨made, size, count⟩ := table
  cases made with
  | none => rintro ⟨⟩
  | some utf8hash =>
      have interning : Interning utf8hash size count := sound
      obtain ⟨index, found⟩ :=
        (exists_find_iff interning.positive).mpr (ending utf8hash rfl m.data)
      simp only [finalizeUtf8const, found]
      split <;> rintro ⟨⟩

theorem Ending.finalized (ending : table.Ending) (sound : table.Sound) (sound' : next.Sound)
    (called : finalizeUtf8const table m = .ok next) : next.Ending := by
  obtain ⟨made, size, count⟩ := table
  cases made with
  | none => exact nomatch called
  | some utf8hash =>
      have isOpen := sound.ending_iff.mp ending
      simp only [finalizeUtf8const] at called
      split at called
      · contradiction
      · rename_i index found
        split at called
        · contradiction
        · rename_i filled
          cases Except.ok.inj called
          exact sound'.ending_iff.mpr (isOpen.delete filled)

theorem Sound.enter_ends {utf8hash : Nat → Slot Utf8Const} {size count : Nat}
    (sound : Sound ⟨some utf8hash, size, count⟩) (isOpen : Open utf8hash size)
    (s : List (BitVec 8)) (address : Nat) :
    enterUtf8Const ⟨some utf8hash, size, count⟩ s address ≠ .error .endless := by
  have interning : Interning utf8hash size count := sound
  obtain ⟨n, empty⟩ := isOpen s
  obtain ⟨index, found⟩ := (exists_find_iff interning.positive).mpr ⟨n, .inl empty⟩
  simp only [enterUtf8Const, found]
  split <;> rintro ⟨⟩

/-- The searches after an entry end exactly if it spared an empty slot for each string. -/
theorem Sound.enter_ending_iff {utf8hash : Nat → Slot Utf8Const} {size count : Nat}
    (sound : Sound ⟨some utf8hash, size, count⟩) (few : 3 * count < 2 * size)
    (isOpen : Open utf8hash size) (short : s.length < 2 ^ 16) (address : Nat) :
    (∀ m next, enterUtf8Const ⟨some utf8hash, size, count⟩ s address = .ok (m, next) →
        next.Ending) ↔
      Data.OpenAddressing.Has Utf8Const.data utf8hash s ∨
        ∀ other, ∃ n, utf8hash (probe size other n) = .empty ∧
          ¬ Place utf8hash size s (probe size other n) := by
  have interning : Interning utf8hash size count := sound
  obtain ⟨n, empty⟩ := isOpen s
  obtain ⟨index, found⟩ := (exists_find_iff interning.positive).mpr ⟨n, .inl empty⟩
  obtain ⟨place, _, ends, here⟩ := (findUtf8hash_eq index).mp found
  rcases ends.1 with free | ⟨m, used, equal⟩
  · have free' : utf8hash index = .empty := here ▸ free
    have sound' := interning.insert few found (fun m used => by rw [free'] at used; contradiction)
      address
    simp only [enterUtf8Const, found, free', stored_eq short]
    have slot : Place utf8hash size s index := ⟨place, here, free', ends.passed⟩
    have same : ∀ i, Place utf8hash size s i ↔ i = index :=
      fun i => ⟨fun other => other.unique slot, fun same => same ▸ slot⟩
    rw [or_iff_right (interning.well.not_has ends free)]
    simp only [same]
    refine Iff.trans ?_ (open_insert_iff index ⟨address, s⟩)
    rw [← ending_iff sound']
    constructor
    · exact fun ending => ending _ _ rfl
    · rintro ending _ _ ⟨⟩
      exact ending
  · have used' : utf8hash index = .used m := here ▸ used
    simp only [enterUtf8Const, found, used']
    refine iff_of_true ?_ (.inl ⟨index, m, used', equal⟩)
    rintro _ _ ⟨⟩
    exact sound.ending_iff.mpr isOpen

theorem Sound.make_marked (sound : table.Sound) (grows : table.Grows) (full : table.isFull)
    {utf8hash : Nat → Slot Utf8Const} (made : table.utf8hash = some utf8hash) {i : Nat}
    (below : i < table.size) (marked : utf8hash i = .deleted) (s : List (BitVec 8))
    (address : Nat) : makeUtf8Const table s address = .error .marker := by
  obtain ⟨_, size, count⟩ := table
  obtain rfl := made
  have interning : Interning utf8hash size count := sound
  have stopped := interning.rehash_marked below marked (grows full)
  rw [makeUtf8Const, LaTTe.Strings.prepare, if_pos full]
  simp only [rehash, stopped]
  rfl

theorem Ending.make (ending : table.Ending) (sound : table.Sound) (grows : table.Grows)
    (s : List (BitVec 8)) (address : Nat) :
    makeUtf8Const table s address ≠ .error .endless ∧ (s.length < 2 ^ 16 →
      ((∀ m next, makeUtf8Const table s address = .ok (m, next) → next.Ending) ↔
        table.Spares s)) := by
  by_cases marked : ∃ utf8hash i, table.utf8hash = some utf8hash ∧ table.isFull ∧
      i < table.size ∧ utf8hash i = .deleted
  · obtain ⟨utf8hash, i, made, full, below, marked⟩ := marked
    rw [sound.make_marked grows full made below marked]
    exact ⟨nofun, fun _ => iff_of_true nofun fun _ _ notFull => absurd full notFull⟩
  · have serves : table.Serves s := ending.serves s fun utf8hash made full i below deleted =>
      marked ⟨utf8hash, i, made, full, below, deleted⟩
    obtain ⟨utf8hash, size, ready, interning, few, _, _, origin⟩ := sound.prepare serves grows
    have isOpen : Open utf8hash size := by
      rcases origin with ⟨_, half⟩ | ⟨_, made, rfl⟩
      · exact exists_empty_of_few interning.prime (Nat.lt_of_succ_lt half)
      · exact interning.ends_iff.mp (ending utf8hash made)
    rw [makeUtf8Const_eq ready]
    refine ⟨Sound.enter_ends interning isOpen s address, fun short => ?_⟩
    rw [Sound.enter_ending_iff interning few isOpen short address]
    rcases origin with ⟨full, half⟩ | ⟨notFull, made, rfl⟩
    · exact iff_of_true (.inr (spares_of_few interning.prime half s))
        fun _ _ notFull => absurd full notFull
    · constructor
      · intro spares slots made' _
        obtain rfl := Option.some.inj (made.symm.trans made')
        exact spares
      · exact fun spares => spares utf8hash made notFull

end Utf8Table

theorem Run.ending {trace : List (Event (List (BitVec 8)) Utf8Const)}
    (run : Run Sparing trace table) : table.Sound ∧ table.Ending := by
  induction run with
  | start => exact ⟨⟨rfl, rfl⟩, nofun⟩
  | make s address m run permitted fresh called ih =>
      obtain ⟨sound, ending⟩ := ih
      obtain ⟨_, _, called', sound', _⟩ :=
        sound.make (sound.serves_of_make ⟨_, called⟩) permitted.2.1 permitted.2.2 address
      obtain ⟨rfl, rfl⟩ := Prod.mk.inj (Except.ok.inj (called'.symm.trans called))
      exact ⟨sound',
        ((ending.make sound permitted.2.1 s address).2 permitted.2.2).mpr permitted.1 _ _ called⟩
  | finalize m run has called ih =>
      obtain ⟨sound, ending⟩ := ih
      obtain ⟨_, called', sound', _⟩ := sound.finalize has
      obtain rfl := Except.ok.inj (called'.symm.trans called)
      exact ⟨sound', ending.finalized sound sound' called⟩

/-- In every run in which each new constant spares an empty slot for each string, all searches
end; the next call keeps it so exactly if it does the same. -/
theorem searches_end_iff {trace : List (Event (List (BitVec 8)) Utf8Const)}
    (run : Run Sparing trace table) :
    table.Ending ∧ (∀ m, finalizeUtf8const table m ≠ .error .endless) ∧
      ∀ s address, table.Grows → makeUtf8Const table s address ≠ .error .endless ∧
        (s.length < 2 ^ 16 →
          ((∀ m next, makeUtf8Const table s address = .ok (m, next) → next.Ending) ↔
            table.Spares s)) := by
  obtain ⟨sound, ending⟩ := run.ending
  exact ⟨ending, ending.finalize_ends sound,
    fun s address grows => ending.make sound grows s address⟩

end

/-! A run with a removal. -/

section

variable {slots : Nat → Slot Utf8Const} {i count address : Nat}
variable {trace : List (Event (List (BitVec 8)) Utf8Const)}

theorem has_update {slot : Slot Utf8Const} {m : Utf8Const} (count : Nat)
    (has : Utf8Table.Has ⟨some (Function.update slots i slot), 1021, count⟩ m) :
    slot = .used m ∨ ∃ j, slots j = .used m := by
  obtain ⟨_, j, made, used⟩ := has
  cases made
  by_cases same : j = i
  · rw [same, Function.update_self] at used
    exact .inl used
  · rw [Function.update_of_ne same] at used
    exact .inr ⟨j, used⟩

/-- A word whose slot is empty is entered, while less than half of the slots are filled. -/
theorem Run.enter_word (run : Run Sparing trace ⟨some slots, 1021, count⟩) (small : i < 1021)
    (free : slots i = .empty) (notFull : 3 * count < 2 * 1021)
    (half : (filledBelow slots 1021).card + 1 < 511)
    (fresh : ∀ m, Utf8Table.Has ⟨some slots, 1021, count⟩ m → m.address ≠ address) :
    Run Sparing (.made (word i) ⟨address, word i⟩ :: trace)
      ⟨some (Function.update slots i (.used ⟨address, word i⟩)), 1021, count + 1⟩ := by
  refine run.make (word i) address _ ⟨?_, ?_, Nat.lt_of_lt_of_le (Nat.lt_succ_self 2) (by decide)⟩
    fresh (make_free_word small free notFull address)
  · rintro _ ⟨⟩ _
    exact .inr (spares_of_few (prime_of_mem_sizes (by decide)) half (word i))
  · exact fun full => absurd full (Nat.not_le.mpr notFull)

end

def entered : Nat → Slot Utf8Const :=
  Function.update (single 0) 1 (.used ⟨2, word 1⟩)

def removed : Nat → Slot Utf8Const :=
  Function.update entered 0 .deleted

theorem filledBelow_single (i : Nat) : (filledBelow (single i) 1021).card ≤ 1 := by
  have empty : (filledBelow (fun _ => (.empty : Slot Utf8Const)) 1021).card = 0 := by
    simp [filledBelow, Slot.isEmpty]
  have entered := card_filledBelow_update (fun _ => .empty) 1021 i
    (.used (⟨1, word i⟩ : Utf8Const))
  rwa [empty] at entered

theorem entered_zero : entered 0 = .used ⟨1, word 0⟩ := by
  rw [entered, Function.update_of_ne (by decide), single_used]

theorem finalize_entered :
    finalizeUtf8const ⟨some entered, 1021, 2⟩ ⟨1, word 0⟩ = .ok ⟨some removed, 1021, 1⟩ := by
  have here := hash_word 0 (by decide)
  have stops : Stops Utf8Const.data (probe 1021) entered (word 0) 0 := by
    refine .inr ⟨⟨1, word 0⟩, ?_, rfl⟩
    rw [probe_zero, here, entered_zero]
  have found : findUtf8hash entered 1021 (word 0) = some 0 := by
    rw [find_first (by decide) stops, here]
  simp only [finalizeUtf8const, found, entered_zero]
  rfl

/-- Two words are made, the first of them is removed, and another is made. -/
theorem searches_end_after_removal :
    ∃ trace table, Run Sparing trace table ∧ trace.length = 4 ∧ table.Ending ∧
      (∀ m, finalizeUtf8const table m ≠ .error .endless) ∧
      ∀ s address, table.Grows → makeUtf8Const table s address ≠ .error .endless ∧
        (s.length < 2 ^ 16 →
          ((∀ m next, makeUtf8Const table s address = .ok (m, next) → next.Ending) ↔
            table.Spares s)) := by
  have first : Run Sparing [.made (word 0) ⟨1, word 0⟩] ⟨some (single 0), 1021, 1⟩ :=
    run_first (by decide) ⟨(fun _ absurd => nomatch absurd), fun _ => by decide, by decide⟩
  have one := filledBelow_single 0
  have two := card_filledBelow_update (single 0) 1021 1 (.used ⟨2, word 1⟩)
  have three := card_filledBelow_update entered 1021 0 .deleted
  change (filledBelow entered 1021).card ≤ _ at two
  change (filledBelow removed 1021).card ≤ _ at three
  have only {m : Utf8Const} (has : ∃ j, single 0 j = .used m) : m.address = 1 := by
    obtain ⟨j, used⟩ := has
    rcases has_update 1 ⟨single 0, j, rfl, used⟩ with same | ⟨_, absurd⟩
    · exact (congrArg Utf8Const.address (Slot.used.inj same)).symm
    · cases absurd
  have second : Run Sparing _ ⟨some entered, 1021, 2⟩ :=
    first.enter_word (by decide) rfl (by decide) (by omega) (by
      rintro m ⟨_, j, made, used⟩ equal
      cases made
      exact absurd (equal.symm.trans (only ⟨j, used⟩)) (by decide))
  have third := second.finalize _ ⟨entered, 0, rfl, entered_zero⟩ finalize_entered
  have last : Run Sparing (.made (word 2) ⟨3, word 2⟩ :: _) _ :=
    third.enter_word (by decide) rfl (by decide) (by omega) (by
      intro m has equal
      rcases has_update 3 has with absurd | ⟨j, used⟩
      · cases absurd
      · rcases has_update 2 ⟨entered, j, rfl, used⟩ with same | other
        · exact absurd ((congrArg Utf8Const.address (Slot.used.inj same)).trans equal) (by decide)
        · exact absurd (equal.symm.trans (only other)) (by decide))
  exact ⟨_, _, last, rfl, searches_end_iff last⟩

/-! A table whose first half of probes for a hash value is filled. -/

def wordSlots (filled : List Nat) (j : Nat) : Slot Utf8Const :=
  if j ∈ filled then .used ⟨j + 1, word j⟩ else .empty

theorem update_wordSlots (i : Nat) (filled : List Nat) :
    Function.update (wordSlots filled) i (.used ⟨i + 1, word i⟩) = wordSlots (i :: filled) := by
  funext j
  by_cases same : j = i
  · rw [same, Function.update_self, wordSlots, if_pos List.mem_cons_self]
  · rw [Function.update_of_ne same]
    simp only [wordSlots, List.mem_cons, same, false_or]

/-- The words of different slots are entered into them. -/
theorem run_wordSlots (filled : List Nat) (apart : (filled ++ [0]).Nodup)
    (inside : ∀ i ∈ filled, i < 1021) (few : filled.length < 681) :
    ∃ trace, Run (fun _ _ => True) trace
      ⟨some (wordSlots (filled ++ [0])), 1021, filled.length + 1⟩ := by
  induction filled with
  | nil =>
      have first : single 0 = wordSlots [0] := by
        rw [← update_wordSlots]
        rfl
      exact ⟨_, first ▸ run_first (by decide) trivial⟩
  | cons i rest ih =>
      rw [List.cons_append, List.nodup_cons] at apart
      rw [List.length_cons] at few
      obtain ⟨trace, run⟩ := ih apart.2 (fun j member => inside j (List.mem_cons_of_mem _ member))
        (Nat.lt_of_succ_lt few)
      have called := make_free_word (inside i List.mem_cons_self)
        (show wordSlots (rest ++ [0]) i = .empty from if_neg apart.1)
        (show 3 * (rest.length + 1) < 2 * 1021 by omega) (i + 1)
      rw [update_wordSlots] at called
      refine ⟨_, run.make (word i) (i + 1) _ trivial ?_ called⟩
      rintro m ⟨_, j, made, used⟩ same
      cases made
      rw [wordSlots] at used
      split at used
      · rename_i member
        obtain rfl := Slot.used.inj used
        exact apart.1 (Nat.succ.inj same ▸ member)
      · contradiction

def squares (count : Nat) : List Nat :=
  (List.range count).map fun n => (n + 1) * (n + 1) % 1021

section

variable {count : Nat}

theorem length_squares : (squares count).length = count := by
  rw [squares, List.length_map, List.length_range]

theorem squares_apart (half : count < 511) : (squares count ++ [0]).Nodup := by
  have all : 0 :: squares count = (List.range (count + 1)).map fun n => (0 + n * n) % 1021 := by
    rw [List.range_succ_eq_map, List.map_cons, List.map_map]
    simp only [squares, Nat.zero_add]
    rfl
  rw [List.nodup_append_comm, List.singleton_append, all]
  refine List.Nodup.map_on (fun n low m low' same => ?_) List.nodup_range
  have low := List.mem_range.mp low
  have low' := List.mem_range.mp low'
  exact quadratic_injOn (show Nat.Prime 1021 from prime_of_mem_sizes (by decide)) 0
    (show n < 511 by omega) (show m < 511 by omega) same

theorem squares_inside (i : Nat) (member : i ∈ squares count) : i < 1021 := by
  obtain ⟨n, _, rfl⟩ := List.mem_map.mp member
  exact Nat.mod_lt _ (by decide)

theorem square_mem (all : 510 ≤ count) (n : Nat) : n * n % 1021 ∈ squares count ++ [0] := by
  have low : ∀ r ≤ 510, r * r % 1021 ∈ squares count ++ [0] := by
    intro r le
    cases r with
    | zero => exact List.mem_append_right _ List.mem_cons_self
    | succ r =>
        exact List.mem_append_left _
          (List.mem_map.mpr ⟨r, List.mem_range.mpr (Nat.lt_of_lt_of_le le all), rfl⟩)
  rw [Nat.mul_mod]
  have less := Nat.mod_lt n (show 0 < 1021 by decide)
  generalize n % 1021 = r at less
  cases Nat.lt_or_ge 510 r with
  | inr small => exact low r small
  | inl large =>
      obtain ⟨t, total⟩ := Nat.exists_eq_add_of_le less.le
      have opposite : r * r + 1021 * t = t * t + 1021 * r := by
        rw [total]
        ring
      have same := congrArg (· % 1021) opposite
      simp only [Nat.add_mul_mod_self_left] at same
      rw [same]
      exact low t (by omega)

theorem find_squares (all : 510 ≤ count) :
    findUtf8hash (wordSlots (squares count ++ [0])) 1021 [0, 0, 0] = none := by
  cases found : findUtf8hash (wordSlots (squares count ++ [0])) 1021 [0, 0, 0] with
  | none => rfl
  | some index =>
      obtain ⟨n, stops⟩ := (exists_find_iff (by decide)).mp ⟨index, found⟩
      have index : probe 1021 [0, 0, 0] n = n * n % 1021 := congrArg (· % 1021) (Nat.zero_add _)
      have slot : wordSlots (squares count ++ [0]) (probe 1021 [0, 0, 0] n) =
          .used ⟨n * n % 1021 + 1, word (n * n % 1021)⟩ := by
        rw [index]
        exact if_pos (square_mem all n)
      rcases stops with empty | ⟨m, used, same⟩
      · rw [slot] at empty
        contradiction
      · rw [slot, Slot.used.injEq] at used
        rw [← used] at same
        exact absurd (congrArg List.length same) (by decide : 2 ≠ 3)

theorem make_squares (all : 510 ≤ count) (few : count < 680) (address : Nat) :
    makeUtf8Const ⟨some (wordSlots (squares count ++ [0])), 1021, count + 1⟩ [0, 0, 0] address =
      .error .endless := by
  have notFull : ¬ Utf8Table.isFull
      ⟨some (wordSlots (squares count ++ [0])), 1021, count + 1⟩ := by
    show ¬ 3 * (count + 1) ≥ 2 * 1021
    omega
  rw [makeUtf8Const, prepare, if_neg notFull]
  simp only [bind, Except.bind, enterUtf8Const, find_squares all]

end

theorem probing_endless :
    ∃ trace table s address, Run (fun _ _ => True) trace table ∧
      makeUtf8Const table s address = .error .endless := by
  obtain ⟨trace, run⟩ := run_wordSlots (squares 510) (squares_apart (by decide)) squares_inside
    (by rw [length_squares]; decide)
  rw [length_squares] at run
  exact ⟨trace, _, [0, 0, 0], 512, run, make_squares (by decide) (by decide) 512⟩

end LaTTe.Strings
