import LaTTe.Data.Insertion
import LaTTe.Data.Transition
import LaTTe.Gc.Regions.Space

namespace LaTTe.Gc

open LaTTe.Data

/-! The region table: an array sorted by start address, searched by bisection. -/

def TableRegion.Contains (region : TableRegion) (p : Nat) : Prop :=
  region.start ≤ p ∧ p < region.stop

instance (region : TableRegion) (p : Nat) : Decidable (region.Contains p) :=
  inferInstanceAs (Decidable (_ ∧ _))

/-- One round of the search; the first component is `lo` and the second `hi`. -/
def regionFindRound (table : List TableRegion) (p : Nat) (range : Int × Int) :
    Option (Int × Int) := do
  let mid := (range.1 + range.2 + 1) / 2
  let region ← table[mid.toNat]?
  some (if p < region.start then (range.1, mid - 1) else (mid, range.2))

/-- `region_find`.  The result is `none` when an assertion fails. -/
def regionFind (table : List TableRegion) (p : Nat) : Option (Option TableRegion) := do
  let (lo, hi) ← whileLoop (fun range => decide (range.1 < range.2)) (regionFindRound table p)
    table.length (0, (table.length : Int) - 1)
  if lo = hi then
    let region ← table[lo.toNat]?
    some (if region.Contains p then some region else none)
  else
    none

def TableRegion.Apart (region other : TableRegion) : Prop :=
  region.stop ≤ other.start ∨ other.stop ≤ region.start

structure TableOk (table : List TableRegion) : Prop where
  ascending : table.Pairwise fun region next => region.stop ≤ next.start
  nonempty : ∀ region ∈ table, region.start < region.stop

namespace TableOk

variable {table : List TableRegion} {region other : TableRegion} {p : Nat}

theorem nil : TableOk [] :=
  ⟨.nil, by simp⟩

theorem before (ok : TableOk table) {i j : Nat} (first : table[i]? = some region)
    (second : table[j]? = some other) (lt : i < j) : region.stop ≤ other.start := by
  obtain ⟨inside, rfl⟩ := List.getElem?_eq_some_iff.mp first
  obtain ⟨inside', rfl⟩ := List.getElem?_eq_some_iff.mp second
  exact List.pairwise_iff_getElem.mp ok.ascending i j inside inside' lt

theorem insertEntry (ok : TableOk table) (positive : region.start < region.stop)
    (apart : ∀ other ∈ table, region.Apart other) : TableOk (Space.insertEntry table region) := by
  have inserted : Space.insertEntry table region =
      insertBehind (fun node => decide (region.start < node.start)) table region := rfl
  rw [inserted]
  constructor
  · apply insertBehind_pairwise ok.ascending
    · intro node member behind
      have starts := of_decide_eq_true behind
      have := ok.nonempty node member
      rcases apart node member with before | behind
      · exact before
      · omega
    · intro node member before
      have starts := of_decide_eq_false before
      have := ok.nonempty node member
      rcases apart node member with before | behind
      · omega
      · exact behind
    · intro first _ node member ordered before
      have := ok.nonempty node member
      omega
  · intro node member
    rcases mem_insertBehind.mp member with rfl | old
    · exact positive
    · exact ok.nonempty node old

end TableOk

structure Window (table : List TableRegion) (p : Nat) (range : Int × Int) : Prop where
  low : 0 ≤ range.1
  ordered : range.1 ≤ range.2
  high : range.2 < table.length
  covers : ∀ (i : Nat) region, table[i]? = some region → region.Contains p →
    range.1 ≤ i ∧ (i : Int) ≤ range.2

namespace Window

variable {table : List TableRegion} {p : Nat} {range : Int × Int}

theorem start (nonempty : table ≠ []) : Window table p (0, (table.length : Int) - 1) := by
  have positive := List.length_pos_of_ne_nil nonempty
  constructor
  · exact le_refl 0
  · dsimp only
    omega
  · dsimp only
    omega
  · intro i region entry _
    have := (List.getElem?_eq_some_iff.mp entry).1
    dsimp only
    omega

theorem round (ok : TableOk table) (window : Window table p range) (more : range.1 < range.2) :
    ∃ next, regionFindRound table p range = some next ∧ Window table p next ∧
      (next.2 - next.1).toNat < (range.2 - range.1).toNat := by
  obtain ⟨low, ordered, high, covers⟩ := window
  obtain ⟨mid, middle⟩ : ∃ mid : Nat, (range.1 + range.2 + 1) / 2 = mid :=
    ⟨_, (Int.toNat_of_nonneg (by omega)).symm⟩
  have inside : mid < table.length := by omega
  have entry : table[mid]? = some table[mid] := List.getElem?_eq_getElem inside
  have positive := ok.nonempty _ (List.getElem_mem inside)
  have round_eq : regionFindRound table p range =
      some (if p < table[mid].start then (range.1, (mid : Int) - 1) else ((mid : Int), range.2)) := by
    simp only [regionFindRound, middle, Int.toNat_natCast, entry, Option.bind_eq_bind,
      Option.bind_some]
  by_cases below : p < table[mid].start
  · refine ⟨(range.1, (mid : Int) - 1), by rw [round_eq, if_pos below],
      ⟨low, by dsimp only; omega, by dsimp only; omega, ?_⟩, by dsimp only; omega⟩
    intro i region found contains
    have within := covers i region found contains
    refine ⟨within.1, ?_⟩
    -- What lies behind the middle starts above it, too.
    rcases Nat.lt_trichotomy mid i with before | rfl | behind
    · have := ok.before entry found before
      have := contains.1
      omega
    · obtain rfl := Option.some.inj (entry.symm.trans found)
      exact absurd contains.1 (Nat.not_le.mpr below)
    · dsimp only
      omega
  · refine ⟨((mid : Int), range.2), by rw [round_eq, if_neg below],
      ⟨by dsimp only; omega, by dsimp only; omega, high, ?_⟩, by dsimp only; omega⟩
    intro i region found contains
    have within := covers i region found contains
    refine ⟨?_, within.2⟩
    rcases Nat.lt_or_ge i mid with before | behind
    · have := ok.before found entry before
      have := contains.2
      omega
    · exact Int.ofNat_le.mpr behind

end Window

theorem regionFind_spec {table : List TableRegion} (ok : TableOk table) (nonempty : table ≠ [])
    (p : Nat) :
    ∃ answer, regionFind table p = some answer ∧
      ∀ region, answer = some region ↔ region ∈ table ∧ region.Contains p := by
  have enough : ((table.length : Int) - 1 - 0).toNat ≤ table.length := by omega
  obtain ⟨⟨lo, hi⟩, loop, window, stops⟩ := whileLoop_total
    (fun range : Int × Int => decide (range.1 < range.2)) (regionFindRound table p)
    (Window table p) (fun range => (range.2 - range.1).toNat)
    (fun range window more => window.round ok (of_decide_eq_true more))
    enough (Window.start nonempty)
  obtain ⟨low, ordered, high, covers⟩ := window
  have same : lo = hi := le_antisymm ordered (not_lt.mp (of_decide_eq_false stops))
  subst same
  obtain ⟨i, rfl⟩ := Int.eq_ofNat_of_zero_le low
  have inside : i < table.length := Int.ofNat_lt.mp high
  have entry : table[i]? = some table[i] := List.getElem?_eq_getElem inside
  refine ⟨if table[i].Contains p then some table[i] else none, ?_, ?_⟩
  · simp only [regionFind, loop, Option.bind_eq_bind, Option.bind_some, if_pos,
      Int.toNat_natCast, entry]
  · intro region
    constructor
    · intro found
      split at found
      · next contains =>
          obtain rfl := Option.some.inj found
          exact ⟨List.getElem_mem inside, contains⟩
      · cases found
    · rintro ⟨member, contains⟩
      obtain ⟨j, at_j⟩ := List.mem_iff_getElem?.mp member
      obtain ⟨above, below⟩ := covers j region at_j contains
      obtain rfl : i = j := Int.ofNat_inj.mp (le_antisymm above below)
      obtain rfl := Option.some.inj (entry.symm.trans at_j)
      exact if_pos contains

structure Granted (table : List TableRegion) (start size : Nat) : Prop where
  inside : start + size < Manual.wordSize
  apart : ∀ region ∈ table, start + size ≤ region.start ∨ region.stop ≤ start

/-- A call of `region_allocate`, or whatever leaves the region table alone. -/
inductive TableStep : Space → Space → Prop where
  | allocate {space next : Space} {size : Nat} {type : RegionType} {answer : Option Nat}
      (positive : 0 < size) (granted : ∀ start, answer = some start →
        Granted space.table start size)
      (returns : space.regionAllocate size type = some (next, answer)) : TableStep space next
  | other {space next : Space} (same : next.table = space.table) : TableStep space next

theorem TableOk.regionAllocate {space next : Space} {size : Nat} {type : RegionType}
    {answer : Option Nat} (ok : TableOk space.table) (positive : 0 < size)
    (granted : ∀ start, answer = some start → Granted space.table start size)
    (returns : space.regionAllocate size type = some (next, answer)) : TableOk next.table := by
  unfold Space.regionAllocate at returns
  split at returns
  · cases returns
    exact ok
  · split at returns
    · cases returns
    · cases returns
      exact ok
    · split at returns
      · cases returns
        exact ok.insertEntry (Nat.lt_add_of_pos_right positive) (granted _ rfl).apart
      · cases returns

theorem TableOk.step {space next : Space} (ok : TableOk space.table)
    (step : TableStep space next) : TableOk next.table := by
  cases step with
  | allocate positive granted returns => exact ok.regionAllocate positive granted returns
  | other same => rwa [same]

theorem tableOk_of_reachable {space : Space}
    (reached : Reachable (fun space : Space => space.table = []) TableStep space) :
    TableOk space.table :=
  reached.invariant (fun space => TableOk space.table)
    (fun _ empty => by rw [empty]; exact TableOk.nil) fun _ _ ok step => ok.step step

/-- The region table stays sorted, and once it has an entry the search in it finds the
region that contains a pointer. -/
theorem region_table_sorted_and_searched {space : Space}
    (reached : Reachable (fun space : Space => space.table = []) TableStep space) :
    space.table.Pairwise (fun region next => region.start < next.start) ∧
      space.table.Pairwise TableRegion.Apart ∧
      (space.table ≠ [] → ∀ p, ∃ answer, regionFind space.table p = some answer ∧
        ∀ region, answer = some region ↔ region ∈ space.table ∧ region.Contains p) := by
  have ok := tableOk_of_reachable reached
  refine ⟨?_, ok.ascending.imp .inl, regionFind_spec ok⟩
  refine ok.ascending.imp_of_mem fun member _ ordered => ?_
  exact lt_of_lt_of_le (ok.nonempty _ member) ordered

private def unused : Space where
  limit := 2 ^ 26
  heapSize := 2 ^ 25
  table := []
  fixed := Manual.memInit fun _ => 0
  large := Manual.memInit fun _ => 0
  area := ⟨fun _ => 0, [], 0, 0, 0, 0⟩
  smallSize := 0
  tablePos := 0
  answers := [some 8388608, some 4194304]

/-- The second region is granted below the first one. -/
theorem region_table_sorted_and_searched_descending :
    ∃ table : List TableRegion, table.map TableRegion.start = [4194304, 8388608] ∧
      ∀ p, ∃ answer, regionFind table p = some answer ∧
        ∀ region, answer = some region ↔ region ∈ table ∧ region.Contains p := by
  have ran : ((unused.regionAllocate gcRegionSize .small).bind fun first =>
      (first.1.regionAllocate gcRegionSize .large).map fun second =>
        (first.1.table, first.2, second.1.table, second.2)) =
      some ([⟨8388608, 10485760, .small⟩], some 8388608,
        [⟨4194304, 6291456, .large⟩, ⟨8388608, 10485760, .small⟩], some 4194304) := by
    decide +kernel
  obtain ⟨⟨space, answer⟩, first, rest⟩ := Option.bind_eq_some_iff.mp ran
  obtain ⟨⟨final, answer'⟩, second, results⟩ := Option.map_eq_some_iff.mp rest
  simp only [Prod.mk.injEq] at results
  obtain ⟨table, rfl, table', rfl⟩ := results
  have allocated : TableStep unused space := by
    refine .allocate (by decide) (fun start same => ?_) first
    obtain rfl := Option.some.inj same
    exact ⟨by decide, by simp [unused]⟩
  have again : TableStep space final := by
    refine .allocate (by decide) (fun start same => ?_) second
    obtain rfl := Option.some.inj same
    exact ⟨by decide, by rw [table]; decide⟩
  have started : Reachable (fun space : Space => space.table = []) TableStep unused :=
    .start rfl
  obtain ⟨_, _, searched⟩ :=
    region_table_sorted_and_searched ((started.tail allocated).tail again)
  rw [table'] at searched
  exact ⟨_, rfl, searched (by simp)⟩

end LaTTe.Gc
