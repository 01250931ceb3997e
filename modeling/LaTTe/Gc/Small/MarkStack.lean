import LaTTe.Data.BoundedArray
import LaTTe.Gc.Small.Sweep

namespace LaTTe.Gc

open LaTTe.Data

/-! The selective sweep takes the live objects from the mark stack itself: it appends its
sentinels there and sorts between the first and the second half of the entries. -/

structure SortHalves where
  stack : BoundedArray
  set : Nat
  dump : Nat

def sortRound (n : Nat) (halves : SortHalves) (shift : Nat) : Option SortHalves := do
  let stack ← halves.stack.countingPass radixSize (radix shift) halves.set halves.dump n
  some { stack := stack, set := halves.dump, dump := halves.set }

def sortObjectsIn (stack : BoundedArray) (set n : Nat) : Option SortHalves :=
  [0, radixBits, 2 * radixBits].foldlM (sortRound n) ⟨stack, set, set + n⟩

/-- `objects[n++] = NULL; objects[n++] = (void*)(~0); sort_objects(objects, n)`. -/
def sortMarkStack (stack : BoundedArray) (n : Nat) : Option SortHalves := do
  let stack ← stack.write n 0
  let stack ← stack.write (n + 1) (2 ^ 32 - 1)
  sortObjectsIn stack 0 (n + 2)

section

variable {stack : BoundedArray} {halves next : SortHalves} {set n shift : Nat}

structure SortHalves.Lies (halves : SortHalves) (set n : Nat) : Prop where
  split : (halves.set = set ∧ halves.dump = set + n) ∨
    (halves.set = set + n ∧ halves.dump = set)

theorem SortHalves.Lies.apart (lies : halves.Lies set n) :
    halves.set + n ≤ halves.dump ∨ halves.dump + n ≤ halves.set := by
  rcases lies.split with ⟨first, second⟩ | ⟨second, first⟩ <;> omega

theorem sortRound_run (lies : halves.Lies set n)
    (run : sortRound n halves shift = some next) :
    next.Lies set n ∧ next.stack.size = halves.stack.size ∧
      (0 < n → halves.dump + n ≤ halves.stack.size) ∧
      next.stack.slice next.set n =
        countingPass radixSize (radix shift) (halves.stack.slice halves.set n)
          (fun _ => 0) := by
  rw [sortRound, Option.bind_eq_bind, Option.bind_eq_some_iff] at run
  obtain ⟨stack, pass, run⟩ := run
  obtain rfl := Option.some.inj run
  obtain ⟨size, inside, sorted⟩ := BoundedArray.countingPass_run
    (radix_lt _) lies.apart pass (fun _ => 0)
  refine ⟨⟨?_⟩, size, inside, sorted⟩
  exact lies.split.symm.imp And.symm And.symm

theorem sortRound_returns (shift : Nat) (lies : halves.Lies set n)
    (room : set + 2 * n ≤ halves.stack.size) :
    ∃ next, sortRound n halves shift = some next := by
  have both : halves.set + n ≤ halves.stack.size ∧ halves.dump + n ≤ halves.stack.size := by
    rcases lies.split with ⟨first, second⟩ | ⟨second, first⟩ <;> omega
  obtain ⟨stack, pass⟩ := BoundedArray.countingPass_returns
    (radix_lt shift) lies.apart both.1 both.2
  exact ⟨_, by rw [sortRound, pass, Option.bind_eq_bind, Option.bind_some]⟩

theorem sortObjectsIn_cons (shifts : List Nat) :
    (shift :: shifts).foldlM (sortRound n) halves =
      (sortRound n halves shift).bind fun next => shifts.foldlM (sortRound n) next :=
  List.foldlM_cons

theorem sortRounds_returns (shifts : List Nat) (lies : halves.Lies set n)
    (room : set + 2 * n ≤ halves.stack.size) :
    ∃ next, shifts.foldlM (sortRound n) halves = some next := by
  induction shifts generalizing halves with
  | nil => exact ⟨halves, rfl⟩
  | cons shift shifts ih =>
      obtain ⟨next, round⟩ := sortRound_returns shift lies room
      obtain ⟨after, size, _⟩ := sortRound_run lies round
      obtain ⟨last, run⟩ := ih after (by rw [size]; exact room)
      exact ⟨last, by rw [sortObjectsIn_cons, round, Option.bind_some, run]⟩

/-- What the rounds leave in the half called `set` is what they make of the list of its
entries. -/
theorem sortRounds_run (shifts : List Nat) (lies : halves.Lies set n)
    (run : shifts.foldlM (sortRound n) halves = some next) :
    next.stack.slice next.set n =
      shifts.foldl
        (fun items shift => countingPass radixSize (radix shift) items (fun _ => 0))
        (halves.stack.slice halves.set n) := by
  induction shifts generalizing halves with
  | nil =>
      obtain rfl := Option.some.inj run
      rfl
  | cons shift shifts ih =>
      rw [sortObjectsIn_cons, Option.bind_eq_some_iff] at run
      obtain ⟨middle, round, run⟩ := run
      obtain ⟨after, _, _, sorted⟩ := sortRound_run lies round
      rw [ih after run, sorted, List.foldl_cons]

theorem sortObjectsIn_lies : (SortHalves.mk stack set (set + n)).Lies set n :=
  ⟨.inl ⟨rfl, rfl⟩⟩

theorem sortObjectsIn_returns (room : set + 2 * n ≤ stack.size) :
    ∃ sorted, sortObjectsIn stack set n = some sorted :=
  sortRounds_returns _ sortObjectsIn_lies room

theorem sortObjectsIn_run (run : sortObjectsIn stack set n = some next) :
    next.stack.slice next.set n = sortObjects (stack.slice set n) :=
  sortRounds_run _ sortObjectsIn_lies run

theorem sortObjectsIn_room (positive : 0 < n) (run : sortObjectsIn stack set n = some next) :
    set + 2 * n ≤ stack.size := by
  rw [sortObjectsIn, sortObjectsIn_cons, Option.bind_eq_some_iff] at run
  obtain ⟨middle, round, _⟩ := run
  obtain ⟨_, _, inside, _⟩ := sortRound_run sortObjectsIn_lies round
  have := inside positive
  change set + n + n ≤ stack.size at this
  omega

private def withSentinels (stack : BoundedArray) (n : Nat) : BoundedArray :=
  { stack with
    entries := setEntry (setEntry stack.entries n 0) (n + 1) (2 ^ 32 - 1) }

private theorem sortMarkStack_eq_some_iff :
    sortMarkStack stack n = some next ↔
      n + 1 < stack.size ∧ sortObjectsIn (withSentinels stack n) 0 (n + 2) = some next := by
  constructor
  · intro run
    rw [sortMarkStack, Option.bind_eq_bind, Option.bind_eq_some_iff] at run
    obtain ⟨first, null, run⟩ := run
    rw [Option.bind_eq_some_iff] at run
    obtain ⟨second, ones, run⟩ := run
    obtain ⟨_, rfl⟩ := BoundedArray.of_write_eq_some null
    obtain ⟨inside, rfl⟩ := BoundedArray.of_write_eq_some ones
    exact ⟨inside, run⟩
  · rintro ⟨inside, run⟩
    rw [sortMarkStack, BoundedArray.write_eq_some (by omega), Option.bind_eq_bind,
      Option.bind_some, BoundedArray.write_eq_some (by exact inside), Option.bind_some]
    exact run

theorem sortMarkStack_returns_iff :
    (∃ sorted, sortMarkStack stack n = some sorted) ↔ 2 * (n + 2) ≤ stack.size := by
  have size : (withSentinels stack n).size = stack.size := rfl
  simp only [sortMarkStack_eq_some_iff]
  constructor
  · rintro ⟨sorted, _, run⟩
    have room := sortObjectsIn_room (by omega) run
    omega
  · intro room
    have inside : 0 + 2 * (n + 2) ≤ (withSentinels stack n).size := by omega
    obtain ⟨sorted, run⟩ := sortObjectsIn_returns inside
    exact ⟨sorted, by omega, run⟩

end

end LaTTe.Gc
