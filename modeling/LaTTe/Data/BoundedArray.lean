import LaTTe.Data.Counting
import LaTTe.Data.Loop

namespace LaTTe.Data

/-! An array with an end: an access behind it is no defined behaviour.  A counting pass
moves the items of one part of such an array to another part. -/

structure BoundedArray where
  size : Nat
  entries : Nat → Nat

namespace BoundedArray

def read (array : BoundedArray) (index : Nat) : Option Nat :=
  if index < array.size then some (array.entries index) else none

def write (array : BoundedArray) (index value : Nat) : Option BoundedArray :=
  if index < array.size then
    some { array with entries := setEntry array.entries index value }
  else
    none

def slice (array : BoundedArray) (start n : Nat) : List Nat :=
  (List.range n).map fun j => array.entries (start + j)

def countItem (key : Nat → Nat) (set : Nat) (array : BoundedArray) (counts : Nat → Nat)
    (j : Nat) : Option (Nat → Nat) := do
  let item ← array.read (set + j)
  some (setEntry counts (key item) (counts (key item) + 1))

def countKeys (key : Nat → Nat) (set n : Nat) (array : BoundedArray) :
    Option (Nat → Nat) :=
  (List.range n).foldlM (countItem key set array) (fun _ => 0)

def placeItem (key : Nat → Nat) (set dump : Nat)
    (state : (Nat → Nat) × BoundedArray) (j : Nat) :
    Option ((Nat → Nat) × BoundedArray) := do
  let item ← state.2.read (set + j)
  let array ← state.2.write (dump + state.1 (key item)) item
  some (setEntry state.1 (key item) (state.1 (key item) + 1), array)

def countingPass (radix : Nat) (key : Nat → Nat) (set dump n : Nat)
    (array : BoundedArray) : Option BoundedArray := do
  let counts ← array.countKeys key set n
  let placed ← (List.range n).foldlM (placeItem key set dump)
    ((keyPositions counts radix).1, array)
  some placed.2

variable {array after : BoundedArray} {set dump n index value : Nat}

theorem read_eq_some (below : index < array.size) :
    array.read index = some (array.entries index) :=
  if_pos below

theorem write_eq_some (below : index < array.size) :
    array.write index value =
      some { array with entries := setEntry array.entries index value } :=
  if_pos below

theorem of_read_eq_some (read : array.read index = some value) :
    index < array.size ∧ value = array.entries index := by
  unfold BoundedArray.read at read
  split at read
  · rename_i below
    exact ⟨below, (Option.some.inj read).symm⟩
  · contradiction

theorem of_write_eq_some (written : array.write index value = some after) :
    index < array.size ∧
      after = { array with entries := setEntry array.entries index value } := by
  unfold write at written
  split at written
  · rename_i below
    exact ⟨below, (Option.some.inj written).symm⟩
  · contradiction

@[simp] theorem length_slice : (array.slice set n).length = n := by
  simp [slice]

theorem slice_succ : array.slice set (n + 1) = array.slice set n ++ [array.entries (set + n)] := by
  simp [slice, List.range_succ]

theorem slice_split (array : BoundedArray) (set : Nat) {j : Nat} (below : j < n) :
    ∃ rest, array.slice set n =
      array.slice set j ++ array.entries (set + j) :: rest := by
  obtain ⟨more, rfl⟩ := Nat.exists_eq_add_of_lt below
  rw [Nat.add_assoc, Nat.add_comm more, ← Nat.add_assoc]
  refine ⟨(List.range more).map fun k => array.entries (set + (j + 1 + k)), ?_⟩
  rw [slice, List.range_add, List.map_append, ← slice, slice_succ]
  simp

section

variable {key : Nat → Nat} {radix : Nat}

theorem countKeys_run {counts : Nat → Nat} (run : array.countKeys key set n = some counts) :
    counts = Data.countKeys key (array.slice set n) := by
  apply foldlM_range_run (fun j counts => counts = Data.countKeys key (array.slice set j)) ?_
    rfl run
  intro j _ before counts same step
  rw [countItem, Option.bind_eq_bind, Option.bind_eq_some_iff] at step
  obtain ⟨item, read, step⟩ := step
  obtain ⟨_, rfl⟩ := of_read_eq_some read
  obtain rfl := Option.some.inj step
  simp [same, slice_succ, Data.countKeys]

theorem countItem_eq {counts : Nat → Nat} {j : Nat} (below : set + j < array.size) :
    countItem key set array counts j =
      some (setEntry counts (key (array.entries (set + j)))
        (counts (key (array.entries (set + j))) + 1)) := by
  rw [countItem, read_eq_some below, Option.bind_eq_bind, Option.bind_some]

theorem countKeys_returns (key : Nat → Nat) (fits : set + n ≤ array.size) :
    ∃ counts, array.countKeys key set n = some counts := by
  have step : ∀ j < n, ∀ counts : Nat → Nat, True →
      ∃ next, countItem key set array counts j = some next ∧ True :=
    fun j below counts _ => ⟨_, countItem_eq (by omega), trivial⟩
  obtain ⟨counts, run, _⟩ := foldlM_range (fun _ _ => True) step trivial
  exact ⟨counts, run⟩

theorem placeItem_eq {state : (Nat → Nat) × BoundedArray} {j : Nat}
    (source : set + j < state.2.size)
    (target : dump + state.1 (key (state.2.entries (set + j))) < state.2.size) :
    placeItem key set dump state j =
      some (setEntry state.1 (key (state.2.entries (set + j)))
          (state.1 (key (state.2.entries (set + j))) + 1),
        { state.2 with
          entries := setEntry state.2.entries
            (dump + state.1 (key (state.2.entries (set + j))))
            (state.2.entries (set + j)) }) := by
  rw [placeItem, read_eq_some source, Option.bind_eq_bind, Option.bind_some,
    write_eq_some target, Option.bind_eq_bind, Option.bind_some]

structure Placing (array : BoundedArray) (key : Nat → Nat) (radix set dump n j : Nat)
    (state : (Nat → Nat) × BoundedArray) : Prop where
  placed : Placed key (array.slice set n) (array.slice set j) radix
    (state.1, fun position => state.2.entries (dump + position))
  size : state.2.size = array.size
  kept : ∀ j < n, state.2.entries (set + j) = array.entries (set + j)
  inside : ∀ digit < radix, ∀ k < (keyGroup key (array.slice set j) digit).length,
    dump + (keyBase key (array.slice set n) digit + k) < array.size

theorem Placing.initial {counts : Nat → Nat} (run : array.countKeys key set n = some counts) :
    Placing array key radix set dump n 0 ((keyPositions counts radix).1, array) where
  placed := by
    rw [countKeys_run run]
    exact .initial _
  size := rfl
  kept := fun _ _ => rfl
  inside := by simp [slice, keyGroup]

variable (small : ∀ item, key item < radix) (apart : set + n ≤ dump ∨ dump + n ≤ set)

include small

theorem Placing.position_lt {j : Nat} {state : (Nat → Nat) × BoundedArray} (below : j < n)
    (placing : Placing array key radix set dump n j state) :
    state.1 (key (array.entries (set + j))) < n := by
  obtain ⟨rest, whole⟩ := array.slice_split set below
  have position := placing.placed.position_lt (fun item _ => small item) whole
  rwa [length_slice] at position

theorem Placing.placeItem_returns {j : Nat} {state : (Nat → Nat) × BoundedArray} (below : j < n)
    (placing : Placing array key radix set dump n j state)
    (source : set + n ≤ array.size) (target : dump + n ≤ array.size) :
    ∃ next, BoundedArray.placeItem key set dump state j = some next := by
  have position := placing.position_lt small below
  rw [← placing.kept j below] at position
  rw [← placing.size] at source target
  exact ⟨_, placeItem_eq (by omega) (by omega)⟩

include apart

/-- What placing one item does, if it is inside the array. -/
theorem Placing.next {j item : Nat} {state : (Nat → Nat) × BoundedArray} (below : j < n)
    (here : item = array.entries (set + j))
    (placing : Placing array key radix set dump n j state)
    (inside : dump + state.1 (key item) < array.size) :
    Placing array key radix set dump n (j + 1)
      (setEntry state.1 (key item) (state.1 (key item) + 1),
        { state.2 with
          entries := setEntry state.2.entries (dump + state.1 (key item)) item }) where
  placed := by
    obtain ⟨rest, whole⟩ := array.slice_split set below
    have moved : (fun position =>
        setEntry state.2.entries (dump + state.1 (key item)) item (dump + position)) =
        setEntry (fun position => state.2.entries (dump + position))
          (state.1 (key item)) item := by
      funext position
      simp [setEntry]
    rw [← here] at whole
    have next := placing.placed.step (small item) whole
    rw [← moved, here, ← slice_succ, ← here] at next
    exact next
  size := placing.size
  kept := by
    intro k inSet
    have position := placing.position_lt small below
    rw [← here] at position
    have other : set + k ≠ dump + state.1 (key item) := by omega
    simp only [setEntry, if_neg other]
    exact placing.kept k inSet
  inside := by
    intro digit smaller k inGroup
    rw [slice_succ, ← here, keyGroup, List.filter_append, List.length_append] at inGroup
    by_cases before : k < (keyGroup key (array.slice set j) digit).length
    · exact placing.inside digit smaller k before
    · rw [keyGroup] at before
      by_cases same : key item = digit
      · have counts : state.1 (key item) = _ := placing.placed.counts _ (small item)
        have last : k = (keyGroup key (array.slice set j) digit).length := by
          simp only [List.filter_cons, same, decide_true, if_true, List.filter_nil,
            List.length_singleton] at inGroup
          rw [keyGroup]
          omega
        rw [last, ← same, ← counts]
        exact inside
      · simp only [List.filter_cons, same, decide_false, Bool.false_eq_true, if_false,
          List.filter_nil, List.length_nil, Nat.add_zero] at inGroup
        contradiction

theorem Placing.placeItem {j : Nat} {state next : (Nat → Nat) × BoundedArray} (below : j < n)
    (placing : Placing array key radix set dump n j state)
    (step : placeItem key set dump state j = some next) :
    Placing array key radix set dump n (j + 1) next := by
  rw [BoundedArray.placeItem, Option.bind_eq_bind, Option.bind_eq_some_iff] at step
  obtain ⟨item, read, step⟩ := step
  rw [Option.bind_eq_bind, Option.bind_eq_some_iff] at step
  obtain ⟨after, written, step⟩ := step
  obtain ⟨_, here⟩ := of_read_eq_some read
  obtain ⟨inside, rfl⟩ := of_write_eq_some written
  obtain rfl := Option.some.inj step
  rw [placing.kept j below] at here
  rw [placing.size] at inside
  exact placing.next small apart below here inside

/-- A pass that returns has sorted the items into `dump`, and that part lies inside the
array. -/
theorem countingPass_run (run : array.countingPass radix key set dump n = some after)
    (initial : Nat → Nat) :
    after.size = array.size ∧ (0 < n → dump + n ≤ array.size) ∧
      after.slice dump n = Data.countingPass radix key (array.slice set n) initial := by
  rw [countingPass, Option.bind_eq_bind, Option.bind_eq_some_iff] at run
  obtain ⟨counts, counted, run⟩ := run
  rw [Option.bind_eq_bind, Option.bind_eq_some_iff] at run
  obtain ⟨state, placed, run⟩ := run
  obtain rfl := Option.some.inj run
  have placing := foldlM_range_run (Placing array key radix set dump n)
    (fun j below state next placing => placing.placeItem small apart below)
    (Placing.initial counted) placed
  refine ⟨placing.size, ?_, ?_⟩
  · intro positive
    have last : n - 1 < keyBase key (array.slice set n) radix := by
      rw [keyBase_length fun item _ => small item, length_slice]
      omega
    obtain ⟨digit, smaller, k, inGroup, position⟩ := exists_keyBase_add last
    have inside := placing.inside digit smaller k inGroup
    omega
  · have grouped := placing.placed.grouped fun item _ => small item
    rw [length_slice] at grouped
    rw [countingPass_eq fun item _ => small item, ← grouped, slice]

theorem countingPass_returns (source : set + n ≤ array.size) (target : dump + n ≤ array.size) :
    ∃ after, array.countingPass radix key set dump n = some after := by
  obtain ⟨counts, counted⟩ := countKeys_returns key source
  obtain ⟨state, placed, _⟩ := foldlM_range (Placing array key radix set dump n)
    (fun j below state placing => by
      obtain ⟨next, step⟩ := placing.placeItem_returns small below source target
      exact ⟨next, step, placing.placeItem small apart below step⟩)
    (Placing.initial counted)
  exact ⟨state.2, by
    rw [countingPass, counted, Option.bind_eq_bind, Option.bind_some, placed,
      Option.bind_eq_bind, Option.bind_some]⟩

end

end BoundedArray

end LaTTe.Data
