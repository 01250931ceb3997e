import LaTTe.Gc.Small.Agreement
import LaTTe.Gc.Small.MarkStack

namespace LaTTe.Gc

open LaTTe.Data

/-! `sort_objects` with any array of object pointers. -/

section

variable {halves next : SortHalves} {set n : Nat}

theorem sortRounds_lies (shifts : List Nat) (lies : halves.Lies set n)
    (run : shifts.foldlM (sortRound n) halves = some next) :
    next.Lies set n ∧ next.stack.size = halves.stack.size := by
  induction shifts generalizing halves with
  | nil =>
      obtain rfl := Option.some.inj run
      exact ⟨lies, rfl⟩
  | cons shift shifts ih =>
      rw [sortObjectsIn_cons, Option.bind_eq_some_iff] at run
      obtain ⟨middle, round, run⟩ := run
      obtain ⟨after, size, _⟩ := sortRound_run lies round
      obtain ⟨last, same⟩ := ih after run
      exact ⟨last, same.trans size⟩

theorem SortHalves.Lies.inside (lies : halves.Lies set n) :
    halves.set + n ≤ set + 2 * n := by
  rcases lies.split with ⟨first, _⟩ | ⟨second, _⟩ <;> omega

/-- The array has `2 * n` entries, and no access is behind them. -/
theorem sortObjectsIn_sorts (objects : Nat → BitVec 32) (n : Nat) :
    ∃ sorted,
      sortObjectsIn ⟨2 * n, fun i => (objects i).toNat⟩ 0 n = some sorted ∧
      sorted.stack.size = 2 * n ∧ sorted.set + n ≤ 2 * n ∧
      (sorted.stack.slice sorted.set n).Perm
        ((List.range n).map fun i => (objects i).toNat) ∧
      (sorted.stack.slice sorted.set n).Pairwise (· ≤ ·) := by
  have given : BoundedArray.slice ⟨2 * n, fun i => (objects i).toNat⟩ 0 n =
      (List.range n).map fun i => (objects i).toNat := by
    simp [BoundedArray.slice]
  obtain ⟨sorted, run⟩ := @sortObjectsIn_returns
    ⟨2 * n, fun i => (objects i).toNat⟩ 0 n (Nat.le_of_eq (Nat.zero_add _))
  obtain ⟨lies, size⟩ := sortRounds_lies _ sortObjectsIn_lies run
  have inside := lies.inside
  rw [Nat.zero_add] at inside
  refine ⟨sorted, run, size, inside, ?_⟩
  rw [sortObjectsIn_run run, given]
  refine ⟨sortObjects_perm _, sortObjects_sorted ?_⟩
  intro p member
  obtain ⟨i, _, rfl⟩ := List.mem_map.mp member
  exact (objects i).isLt

end

end LaTTe.Gc
