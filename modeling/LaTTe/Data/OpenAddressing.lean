import Mathlib.Algebra.Field.ZMod
import Mathlib.Data.Finset.Card
import Mathlib.Logic.Function.Basic

namespace LaTTe.Data

universe u v

/-! Hash tables with open addressing.  An item is looked for along the probes of its key;
a removed item leaves a mark, so that the probes behind it are still followed. -/

inductive Slot (α : Type u) where
  | empty
  | deleted
  | used (item : α)
  deriving DecidableEq, Repr

namespace Slot

variable {α : Type u}

def isUsed : Slot α → Bool
  | used _ => true
  | _ => false

def isEmpty : Slot α → Bool
  | empty => true
  | _ => false

theorem isUsed_iff {slot : Slot α} : slot.isUsed = true ↔ ∃ a, slot = .used a := by
  cases slot <;> simp [isUsed]

theorem isEmpty_iff {slot : Slot α} : slot.isEmpty = true ↔ slot = .empty := by
  cases slot <;> simp [isEmpty]

end Slot

namespace OpenAddressing

variable {α : Type u} {κ : Type v} (key : α → κ) (probe : κ → Nat → Nat)

structure WellPlaced (slots : Nat → Slot α) : Prop where
  placed : ∀ i a, slots i = .used a → ∃ n, probe (key a) n = i ∧
    ∀ m < n, slots (probe (key a) m) ≠ .empty
  unique : ∀ i j a b, slots i = .used a → slots j = .used b → key a = key b → i = j

def Stops (slots : Nat → Slot α) (k : κ) (n : Nat) : Prop :=
  slots (probe k n) = .empty ∨ ∃ a, slots (probe k n) = .used a ∧ key a = k

def Ends (slots : Nat → Slot α) (k : κ) (n : Nat) : Prop :=
  Stops key probe slots k n ∧ ∀ m < n, ¬ Stops key probe slots k m

def Has (slots : Nat → Slot α) (k : κ) : Prop :=
  ∃ i a, slots i = .used a ∧ key a = k

variable {key probe} {slots : Nat → Slot α} {k : κ} {n : Nat}

theorem Ends.unique {m : Nat} (first : Ends key probe slots k n)
    (second : Ends key probe slots k m) : n = m := by
  rcases Nat.lt_trichotomy n m with less | same | greater
  · exact absurd first.1 (second.2 n less)
  · exact same
  · exact absurd second.1 (first.2 m greater)

theorem exists_ends (stops : Stops key probe slots k n) :
    ∃ m ≤ n, Ends key probe slots k m := by
  classical
  have some : ∃ m, Stops key probe slots k m := ⟨n, stops⟩
  exact ⟨Nat.find some, Nat.find_min' some stops, Nat.find_spec some,
    fun m less => Nat.find_min some less⟩

theorem Ends.passed (ends : Ends key probe slots k n) :
    ∀ m < n, slots (probe k m) ≠ .empty :=
  fun m less empty => ends.2 m less (.inl empty)

theorem WellPlaced.empty : WellPlaced key probe (fun _ => (.empty : Slot α)) :=
  ⟨nofun, nofun⟩

namespace WellPlaced

variable (well : WellPlaced key probe slots)

include well

theorem stops {i : Nat} {a : α} (used : slots i = .used a) :
    ∃ n, probe (key a) n = i ∧ Stops key probe slots (key a) n := by
  obtain ⟨n, here, _⟩ := well.placed i a used
  exact ⟨n, here, .inr ⟨a, here ▸ used, rfl⟩⟩

theorem ends_used {i : Nat} {a : α} (used : slots i = .used a)
    (ends : Ends key probe slots (key a) n) : probe (key a) n = i := by
  obtain ⟨place, here, before⟩ := well.placed i a used
  have stops : Stops key probe slots (key a) place := .inr ⟨a, here ▸ used, rfl⟩
  rcases Nat.lt_trichotomy n place with less | same | greater
  · rcases ends.1 with empty | ⟨b, other, equal⟩
    · exact absurd empty (before n less)
    · exact well.unique _ _ b a other used equal
  · rw [same, here]
  · exact absurd stops (ends.2 place greater)

theorem not_has (ends : Ends key probe slots k n) (empty : slots (probe k n) = .empty) :
    ¬ Has key slots k := by
  rintro ⟨i, a, used, rfl⟩
  rw [well.ends_used used ends, used] at empty
  contradiction

theorem insert {a : α} (passed : ∀ m < n, slots (probe (key a) m) ≠ .empty) (absent : ¬ Has key slots (key a)) :
    WellPlaced key probe (Function.update slots (probe (key a) n) (.used a)) := by
  refine ⟨fun i b used => ?_, fun i j b c used used' equal => ?_⟩
  · have still : ∀ index, slots index ≠ .empty →
        Function.update slots (probe (key a) n) (.used a) index ≠ .empty := by
      intro index nonempty
      by_cases same : index = probe (key a) n
      · rw [same, Function.update_self]
        exact nofun
      · rwa [Function.update_of_ne same]
    by_cases same : i = probe (key a) n
    · rw [same, Function.update_self, Slot.used.injEq] at used
      subst used
      exact ⟨n, same.symm, fun m less => still _ (passed m less)⟩
    · rw [Function.update_of_ne same] at used
      obtain ⟨place, here, before⟩ := well.placed i b used
      exact ⟨place, here, fun m less => still _ (before m less)⟩
  · by_cases same : i = probe (key a) n
    · by_cases same' : j = probe (key a) n
      · rw [same, same']
      · rw [same, Function.update_self, Slot.used.injEq] at used
        rw [Function.update_of_ne same'] at used'
        exact absurd ⟨j, c, used', used ▸ equal.symm⟩ absent
    · rw [Function.update_of_ne same] at used
      by_cases same' : j = probe (key a) n
      · rw [same', Function.update_self, Slot.used.injEq] at used'
        exact absurd ⟨i, b, used, used' ▸ equal⟩ absent
      · rw [Function.update_of_ne same'] at used'
        exact well.unique i j b c used used' equal

theorem delete (i : Nat) :
    WellPlaced key probe (Function.update slots i .deleted) := by
  have old : ∀ j b, Function.update slots i .deleted j = .used b → slots j = .used b := by
    intro j b here
    by_cases same : j = i
    · rw [same, Function.update_self] at here
      contradiction
    · rwa [Function.update_of_ne same] at here
  refine ⟨fun j b here => ?_, fun j l b c first second equal =>
    well.unique j l b c (old j b first) (old l c second) equal⟩
  obtain ⟨place, at_, before⟩ := well.placed j b (old j b here)
  refine ⟨place, at_, fun m less => ?_⟩
  by_cases same : probe (key b) m = i
  · rw [same, Function.update_self]
    exact nofun
  · rw [Function.update_of_ne same]
    exact before m less

end WellPlaced

/-! How full a table is. -/

def usedBelow (slots : Nat → Slot α) (size : Nat) : Finset Nat :=
  (Finset.range size).filter fun i => (slots i).isUsed = true

def filledBelow (slots : Nat → Slot α) (size : Nat) : Finset Nat :=
  (Finset.range size).filter fun i => (slots i).isEmpty = false

variable {size i : Nat}

theorem usedBelow_insert (below : i < size) (a : α) :
    usedBelow (Function.update slots i (.used a)) size = insert i (usedBelow slots size) := by
  ext j
  simp only [usedBelow, Finset.mem_filter, Finset.mem_range, Finset.mem_insert]
  by_cases same : j = i
  · subst same
    simp [Function.update_self, Slot.isUsed, below]
  · simp [same]

theorem usedBelow_delete (slots : Nat → Slot α) (size i : Nat) :
    usedBelow (Function.update slots i .deleted) size = (usedBelow slots size).erase i := by
  ext j
  simp only [usedBelow, Finset.mem_filter, Finset.mem_range, Finset.mem_erase]
  by_cases same : j = i
  · subst same
    simp [Function.update_self, Slot.isUsed]
  · simp [same]

theorem card_usedBelow_insert (below : i < size) (free : (slots i).isUsed = false) (a : α) :
    (usedBelow (Function.update slots i (.used a)) size).card = (usedBelow slots size).card + 1 := by
  rw [usedBelow_insert below, Finset.card_insert_of_notMem]
  simp [usedBelow, free]

theorem card_usedBelow_delete (below : i < size) (used : (slots i).isUsed = true) :
    (usedBelow (Function.update slots i .deleted) size).card + 1 = (usedBelow slots size).card := by
  rw [usedBelow_delete]
  refine Finset.card_erase_add_one ?_
  simp [usedBelow, used, below]

theorem card_filledBelow_update (slots : Nat → Slot α) (size i : Nat) (slot : Slot α) :
    (filledBelow (Function.update slots i slot) size).card ≤
      (filledBelow slots size).card + 1 := by
  have included : filledBelow (Function.update slots i slot) size ⊆
      insert i (filledBelow slots size) := by
    intro j member
    by_cases same : j = i
    · exact Finset.mem_insert.mpr (.inl same)
    · simp only [filledBelow, Finset.mem_filter, Function.update_of_ne same] at member
      exact Finset.mem_insert_of_mem (Finset.mem_filter.mpr member)
  exact (Finset.card_le_card included).trans (Finset.card_insert_le _ _)

theorem exists_notMem_of_injOn {path : Nat → Nat} {count : Nat} {slots : Finset Nat}
    (apart : Set.InjOn path (Set.Iio count)) (less : slots.card < count) :
    ∃ n < count, path n ∉ slots := by
  have card : ((Finset.range count).image path).card = count := by
    rw [Finset.card_image_of_injOn, Finset.card_range]
    intro a low b low' equal
    exact apart (by simpa using low) (by simpa using low') equal
  obtain ⟨i, member, outside⟩ := Finset.exists_mem_notMem_of_card_lt_card (card.symm ▸ less)
  obtain ⟨n, low, rfl⟩ := Finset.mem_image.mp member
  exact ⟨n, Finset.mem_range.mp low, outside⟩

theorem exists_empty {count : Nat} (inside : ∀ n, probe k n < size)
    (apart : Set.InjOn (probe k) (Set.Iio count))
    (less : (filledBelow slots size).card < count) :
    ∃ n < count, slots (probe k n) = .empty := by
  obtain ⟨n, low, outside⟩ := exists_notMem_of_injOn apart less
  refine ⟨n, low, ?_⟩
  by_contra filled
  refine outside (Finset.mem_filter.mpr ⟨Finset.mem_range.mpr (inside n), ?_⟩)
  exact eq_false_of_ne_true fun empty => filled (Slot.isEmpty_iff.mp empty)

theorem filledBelow_eq (unmarked : ∀ j, slots j ≠ .deleted) :
    filledBelow slots size = usedBelow slots size := by
  ext j
  simp only [filledBelow, usedBelow, Finset.mem_filter, Finset.mem_range]
  refine and_congr_right fun _ => ?_
  cases slot : slots j with
  | empty => exact iff_of_false nofun nofun
  | deleted => exact absurd slot (unmarked j)
  | used a => exact iff_of_true rfl rfl

variable (key probe) in
structure Holding (slots : Nat → Slot α) (size : Nat) (keys : Finset κ) : Prop where
  well : WellPlaced key probe slots
  unmarked : ∀ j, slots j ≠ .deleted
  inside : ∀ j, slots j ≠ .empty → j < size
  has : ∀ k, Has key slots k ↔ k ∈ keys
  card : (usedBelow slots size).card = keys.card

namespace Holding

variable {keys : Finset κ}

theorem start (size : Nat) : Holding key probe (fun _ => (.empty : Slot α)) size ∅ where
  well := .empty
  unmarked := fun _ => nofun
  inside := fun _ filled => absurd rfl filled
  has := fun k => iff_of_false (fun ⟨_, _, used, _⟩ => nomatch used) (Finset.notMem_empty k)
  card := by simp [usedBelow, Slot.isUsed]

theorem enter [DecidableEq κ] {a : α} (holding : Holding key probe slots size keys)
    (ends : Ends key probe slots (key a) n) (empty : slots (probe (key a) n) = .empty)
    (below : probe (key a) n < size) :
    Holding key probe (Function.update slots (probe (key a) n) (.used a)) size
      (insert (key a) keys) := by
  have absent := holding.well.not_has ends empty
  refine ⟨holding.well.insert ends.passed absent, fun j => ?_, fun j filled => ?_, fun k => ?_, ?_⟩
  · by_cases same : j = probe (key a) n
    · rw [same, Function.update_self]
      exact nofun
    · rw [Function.update_of_ne same]
      exact holding.unmarked j
  · by_cases same : j = probe (key a) n
    · exact same ▸ below
    · rw [Function.update_of_ne same] at filled
      exact holding.inside j filled
  · rw [Finset.mem_insert, ← holding.has]
    constructor
    · intro ⟨j, b, used, here⟩
      by_cases same : j = probe (key a) n
      · rw [same, Function.update_self, Slot.used.injEq] at used
        exact Or.inl (used ▸ here.symm)
      · rw [Function.update_of_ne same] at used
        exact Or.inr ⟨j, b, used, here⟩
    · intro has
      rcases has with rfl | ⟨j, b, used, here⟩
      · exact ⟨_, a, Function.update_self .., rfl⟩
      · have other : j ≠ probe (key a) n := by
          intro same
          rw [same, empty] at used
          cases used
        exact ⟨j, b, (Function.update_of_ne other ..).trans used, here⟩
  · rw [card_usedBelow_insert below (by rw [empty]; rfl), holding.card,
      Finset.card_insert_of_notMem (mt (holding.has _).mpr absent)]

theorem stops_iff (holding : Holding key probe slots size keys)
    (inside : ∀ n, probe k n < size) (apart : Set.InjOn (probe k) (Set.Iio size)) :
    (∃ n, Stops key probe slots k n) ↔ keys.card < size ∨ k ∈ keys := by
  constructor
  · intro ⟨n, stops⟩
    rcases stops with empty | used
    · refine Or.inl ?_
      have free : probe k n ∉ usedBelow slots size := by
        intro member
        have used := (Finset.mem_filter.mp member).2
        rw [empty] at used
        cases used
      have less := Finset.card_lt_card ((Finset.ssubset_iff_of_subset (Finset.filter_subset _ _)).mpr
        ⟨probe k n, Finset.mem_range.mpr (inside n), free⟩)
      change (usedBelow slots size).card < _ at less
      rwa [holding.card, Finset.card_range] at less
    · exact Or.inr ((holding.has k).mp ⟨_, used⟩)
  · intro room
    rcases room with less | member
    · rw [← holding.card, ← filledBelow_eq holding.unmarked] at less
      obtain ⟨n, _, empty⟩ := exists_empty inside apart less
      exact ⟨n, Or.inl empty⟩
    · obtain ⟨i, a, used, rfl⟩ := (holding.has k).mpr member
      obtain ⟨n, _, stops⟩ := holding.well.stops used
      exact ⟨n, stops⟩

end Holding

/-! A table is copied into a new one, slot by slot. -/

theorem card_usedBelow (slots : Nat → Slot α) (size : Nat) :
    (usedBelow slots size).card = (List.range size).countP fun i => (slots i).isUsed := by
  induction size with
  | zero => rfl
  | succ size ih =>
      rw [usedBelow, Finset.range_add_one, Finset.filter_insert, List.range_succ,
        List.countP_append, ← ih, List.countP_singleton]
      split
      · rw [Finset.card_insert_of_notMem (by simp)]
        rfl
      · rfl

variable (key probe) in
structure Copied (old : Nat → Slot α) (size : Nat) (done : List Nat)
    (new : Nat → Slot α) : Prop where
  well : WellPlaced key probe new
  unmarked : ∀ j, new j ≠ .deleted
  inside : ∀ j, new j ≠ .empty → j < size
  same : ∀ a, (∃ j, new j = .used a) ↔ ∃ i ∈ done, old i = .used a
  counted : (usedBelow new size).card = done.countP fun i => (old i).isUsed

namespace Copied

variable {old new : Nat → Slot α} {done : List Nat}

theorem start (old : Nat → Slot α) (size : Nat) :
    Copied key probe old size [] fun _ => .empty where
  well := .empty
  unmarked := fun _ => nofun
  inside := fun _ absurd => (absurd rfl).elim
  same := fun _ => ⟨(nomatch ·.choose_spec), (nomatch ·.choose_spec.1)⟩
  counted := by simp [usedBelow, Slot.isUsed]

theorem skip (copied : Copied key probe old size done new) (unused : (old i).isUsed = false) :
    Copied key probe old size (done ++ [i]) new where
  well := copied.well
  unmarked := copied.unmarked
  inside := copied.inside
  same := by
    intro a
    rw [copied.same a]
    constructor
    · rintro ⟨j, member, used⟩
      exact ⟨j, List.mem_append_left _ member, used⟩
    · rintro ⟨j, member, used⟩
      cases List.mem_append.mp member with
      | inl member => exact ⟨j, member, used⟩
      | inr last =>
          rw [← List.mem_singleton.mp last, used] at unused
          contradiction
  counted := by
    rw [copied.counted, List.countP_append, List.countP_singleton, unused]
    rfl

/-- An item is entered into an empty slot. -/
theorem enter (copied : Copied key probe old size done new) {a : α} (used : old i = .used a)
    (passed : ∀ m < n, new (probe (key a) m) ≠ .empty)
    (absent : ¬ Has key new (key a)) (empty : new (probe (key a) n) = .empty)
    (below : probe (key a) n < size) :
    Copied key probe old size (done ++ [i])
      (Function.update new (probe (key a) n) (.used a)) where
  well := copied.well.insert passed absent
  unmarked := by
    intro j
    by_cases same : j = probe (key a) n
    · rw [same, Function.update_self]
      exact nofun
    · rw [Function.update_of_ne same]
      exact copied.unmarked j
  inside := by
    intro j filled
    by_cases same : j = probe (key a) n
    · exact same ▸ below
    · rw [Function.update_of_ne same] at filled
      exact copied.inside j filled
  same := by
    intro b
    constructor
    · rintro ⟨j, used'⟩
      by_cases same : j = probe (key a) n
      · rw [same, Function.update_self, Slot.used.injEq] at used'
        exact ⟨i, List.mem_append_right _ List.mem_cons_self, used' ▸ used⟩
      · rw [Function.update_of_ne same] at used'
        obtain ⟨old', member, origin⟩ := (copied.same b).mp ⟨j, used'⟩
        exact ⟨old', List.mem_append_left _ member, origin⟩
    · rintro ⟨j, member, origin⟩
      cases List.mem_append.mp member with
      | inl member =>
          obtain ⟨l, used'⟩ := (copied.same b).mpr ⟨j, member, origin⟩
          have apart : l ≠ probe (key a) n := by
            rintro rfl
            rw [empty] at used'
            contradiction
          exact ⟨l, by rw [Function.update_of_ne apart, used']⟩
      | inr last =>
          rw [List.mem_singleton.mp last, used, Slot.used.injEq] at origin
          exact ⟨_, by rw [Function.update_self, origin]⟩
  counted := by
    rw [card_usedBelow_insert below (by rw [empty]; rfl), copied.counted, List.countP_append,
      List.countP_singleton, used]
    rfl

theorem filled (copied : Copied key probe old size done new) :
    filledBelow new size = usedBelow new size :=
  filledBelow_eq copied.unmarked

variable {ε : Type v} {step : (Nat → Slot α) → Nat → Except ε (Nat → Slot α)} {limit : Nat}

variable (key probe) in
structure Enters (old : Nat → Slot α) (size limit : Nat)
    (step : (Nat → Slot α) → Nat → Except ε (Nat → Slot α)) (todo : List Nat) : Prop where
  skips : ∀ new, ∀ i ∈ todo, (old i).isUsed = false → step new i = .ok new
  enters : ∀ done new, Copied key probe old size done new →
    (done.countP fun i => (old i).isUsed) < limit → ∀ i a, old i = .used a →
      ¬ Has key new (key a) → ∃ n, step new i = .ok (Function.update new (probe (key a) n) (.used a)) ∧
        new (probe (key a) n) = .empty ∧ (∀ m < n, new (probe (key a) m) ≠ .empty) ∧
          probe (key a) n < size

theorem run (todo : List Nat) (copied : Copied key probe old size done new)
    (enters : Enters key probe old size limit step todo)
    (unique : ∀ i j a b, old i = .used a → old j = .used b → key a = key b → i = j)
    (few : ((done ++ todo).countP fun i => (old i).isUsed) ≤ limit)
    (apart : (done ++ todo).Nodup) :
    ∃ last, todo.foldlM step new = .ok last ∧
      Copied key probe old size (done ++ todo) last := by
  induction todo generalizing done new with
  | nil => exact ⟨new, rfl, by rwa [List.append_nil]⟩
  | cons i rest ih =>
      have next : ∃ next, step new i = .ok next ∧
          Copied key probe old size (done ++ [i]) next := by
        cases slot : (old i).isUsed with
        | false => exact ⟨new, enters.skips new i List.mem_cons_self slot, copied.skip slot⟩
        | true =>
            obtain ⟨a, used⟩ := Slot.isUsed_iff.mp slot
            have absent : ¬ Has key new (key a) := by
              rintro ⟨j, b, used', equal⟩
              obtain ⟨l, member, origin⟩ := (copied.same b).mp ⟨j, used'⟩
              have same := unique l i b a origin used equal
              exact (List.nodup_append.mp apart).2.2 l member i List.mem_cons_self same
            have low : (done.countP fun i => (old i).isUsed) < limit := by
              rw [List.countP_append, List.countP_cons, if_pos slot] at few
              omega
            obtain ⟨n, entered, empty, passed, below⟩ :=
              enters.enters done new copied low i a used absent
            exact ⟨_, entered, copied.enter used passed absent empty below⟩
      obtain ⟨next, entered, copied'⟩ := next
      have split : done ++ i :: rest = done ++ [i] ++ rest := by
        rw [List.append_assoc, List.singleton_append]
      rw [split] at few apart
      have later : Enters key probe old size limit step rest :=
        ⟨fun new j member => enters.skips new j (List.mem_cons_of_mem _ member), enters.enters⟩
      obtain ⟨last, done', copied''⟩ := ih copied' later few apart
      refine ⟨last, ?_, split ▸ copied''⟩
      rw [List.foldlM_cons, entered]
      exact done'

theorem all {oldSize : Nat}
    (enters : Enters key probe old size limit step (List.range oldSize).reverse)
    (unique : ∀ i j a b, old i = .used a → old j = .used b → key a = key b → i = j)
    (few : (usedBelow old oldSize).card ≤ limit) :
    ∃ new, (List.range oldSize).reverse.foldlM step (fun _ => .empty) = .ok new ∧
      Copied key probe old size (List.range oldSize).reverse new := by
  have total : ((List.range oldSize).reverse.countP fun i => (old i).isUsed) ≤ limit := by
    rwa [List.countP_reverse, ← card_usedBelow]
  have result := run (List.range oldSize).reverse (start old size) enters unique total
    (List.nodup_reverse.mpr List.nodup_range)
  rwa [List.nil_append] at result

theorem kept {oldSize : Nat} (copied : Copied key probe old size (List.range oldSize).reverse new)
    (inside : ∀ i, old i ≠ .empty → i < oldSize) (a : α) :
    (∃ i, new i = .used a) ↔ ∃ i, old i = .used a := by
  rw [copied.same a]
  constructor
  · rintro ⟨i, _, used⟩
    exact ⟨i, used⟩
  · rintro ⟨i, used⟩
    have below := inside i (by rw [used]; exact nofun)
    exact ⟨i, List.mem_reverse.mpr (List.mem_range.mpr below), used⟩

theorem card {oldSize : Nat} (copied : Copied key probe old size (List.range oldSize).reverse new) :
    (usedBelow new size).card = (usedBelow old oldSize).card := by
  rw [copied.counted, List.countP_reverse, ← card_usedBelow]

end Copied

/-! The ways in which a table is probed. -/

theorem linear_injOn (hash size : Nat) :
    Set.InjOn (fun n => (hash + n) % size) (Set.Iio size) := by
  intro a low b low' equal
  exact Nat.ModEq.eq_of_lt_of_lt (Nat.ModEq.add_left_cancel' hash equal) low low'

theorem quadratic_injOn {p : Nat} (prime : p.Prime) (hash : Nat) :
    Set.InjOn (fun n => (hash + n * n) % p) (Set.Iio ((p + 1) / 2)) := by
  intro a low b low' equal
  have low : a < (p + 1) / 2 := low
  have low' : b < (p + 1) / 2 := low'
  have : Fact p.Prime := ⟨prime⟩
  have squares : (a : ZMod p) * a = b * b := by
    have same := (ZMod.natCast_eq_natCast_iff' (hash + a * a) (hash + b * b) p).mpr equal
    push_cast at same
    exact add_left_cancel same
  rcases mul_self_eq_mul_self_iff.mp squares with same | opposite
  · have values := (ZMod.natCast_eq_natCast_iff' a b p).mp same
    rwa [Nat.mod_eq_of_lt (by omega), Nat.mod_eq_of_lt (by omega)] at values
  · have zero : ((a + b : Nat) : ZMod p) = 0 := by
      push_cast
      rw [opposite, neg_add_cancel]
    have divides := (ZMod.natCast_eq_zero_iff (a + b) p).mp zero
    have sum : a + b = 0 := by
      by_contra positive
      have := Nat.le_of_dvd (Nat.pos_of_ne_zero positive) divides
      omega
    omega

theorem odd_injOn {bits start step : Nat} (odd : step % 2 = 1) :
    Set.InjOn (fun n => (start + n * step) % 2 ^ bits) (Set.Iio (2 ^ bits)) := by
  intro a low b low' equal
  have low : a < 2 ^ bits := low
  have low' : b < 2 ^ bits := low'
  have coprime : Nat.gcd (2 ^ bits) step = 1 :=
    Nat.Coprime.pow_left bits ((Nat.coprime_two_left).mpr (Nat.odd_iff.mpr odd))
  have products : a * step ≡ b * step [MOD 2 ^ bits] := Nat.ModEq.add_left_cancel' start equal
  have same : a ≡ b [MOD 2 ^ bits] := Nat.ModEq.cancel_right_of_coprime coprime products
  exact Nat.ModEq.eq_of_lt_of_lt same low low'

end OpenAddressing

end LaTTe.Data
