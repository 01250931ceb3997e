import LaTTe.Registers.MemoryOperations

namespace LaTTe.Registers.InMemory.AllocStat

open LaTTe.Data
open LaTTe.Registers.AllocStat (Sound Free Movable)

/-! A clone has arrays of its own. -/

variable {numVars : Nat} {arrays after next : Arrays Entry} {h : AllocStat}
  {status : Registers.AllocStat} {rmap : Nat → Entry} {n : Nat}

structure Cloned (arrays : Arrays Entry) (status : Registers.AllocStat) (n : Nat)
    (after : Arrays Entry) (rmap : Nat → Entry) : Prop where
  keeps : arrays.Keeps (fun _ => False) after
  lists : ∀ r < n, Lists after (rmap r) (status.rmap r)
  rest : ∀ r, n ≤ r → rmap r = .null
  fresh : ∀ r address, rmap r = .array address →
    arrays.allocated ≤ address ∧ address < after.allocated
  apart : ∀ r s address, rmap r = .array address → rmap s = .array address → r = s

theorem Cloned.start (arrays : Arrays Entry) (status : Registers.AllocStat) :
    Cloned arrays status 0 arrays fun _ => .null where
  keeps := .refl _ _
  lists := fun _ below => absurd below (Nat.not_lt_zero _)
  rest := fun _ _ => rfl
  fresh := nofun
  apart := nofun

theorem Cloned.put (cloned : Cloned arrays status n after rmap)
    (keeps : after.Keeps (fun _ => False) next) {entry : Entry}
    (lists : Lists next entry (status.rmap n))
    (fresh : ∀ address, entry = .array address →
      after.allocated ≤ address ∧ address < next.allocated) :
    Cloned arrays status (n + 1) next (Function.update rmap n entry) := by
  have place : ∀ r address, Function.update rmap n entry r = .array address →
      r ≠ n ∧ rmap r = .array address ∨ r = n ∧ entry = .array address := by
    intro r address here
    by_cases last : r = n
    · rw [last, Function.update_self] at here
      exact Or.inr ⟨last, here⟩
    · rw [Function.update_of_ne last] at here
      exact Or.inl ⟨last, here⟩
  refine ⟨?_, fun r below => ?_, fun r behind => ?_, fun r address here => ?_, ?_⟩
  · exact cloned.keeps.trans keeps fun _ changed => Or.inl changed
  · by_cases last : r = n
    · rw [last, Function.update_self]
      exact lists
    · rw [Function.update_of_ne last]
      exact (cloned.lists r (by omega)).keeps keeps fun _ _ => id
  · rw [Function.update_of_ne (Nat.ne_of_gt behind)]
    exact cloned.rest r (Nat.le_of_succ_le behind)
  · rcases place r address here with ⟨_, before⟩ | ⟨_, new⟩
    · have old := cloned.fresh r address before
      exact ⟨old.1, Nat.lt_of_lt_of_le old.2 keeps.grows⟩
    · have bounds := fresh address new
      exact ⟨Nat.le_trans cloned.keeps.grows bounds.1, bounds.2⟩
  · intro r s address here there
    rcases place r address here with ⟨_, before⟩ | ⟨last, new⟩
    · rcases place s address there with ⟨_, before'⟩ | ⟨_, new⟩
      · exact cloned.apart r s address before before'
      · exact absurd (cloned.fresh r address before).2 (Nat.not_lt_of_le (fresh address new).1)
    · rcases place s address there with ⟨_, before⟩ | ⟨last', _⟩
      · exact absurd (cloned.fresh s address before).2 (Nat.not_lt_of_le (fresh address new).1)
      · exact last.trans last'.symm

theorem Cloned.skip (cloned : Cloned arrays status n after rmap) (empty : status.rmap n = []) :
    Cloned arrays status (n + 1) after rmap := by
  have put : Cloned arrays status (n + 1) after (Function.update rmap n .null) :=
    cloned.put (.refl _ after) (empty ▸ .none) nofun
  rwa [← cloned.rest n (Nat.le_refl n), Function.update_eq_self] at put

theorem refcount_of_empty (sound : Sound numVars status) {r : Nat} (empty : status.rmap r = [])
    (counted : status.refcount r ≠ 0) : status.refcount r = status.refcount (r - 1) := by
  have count := sound.refcount r
  rw [empty, List.length_nil, Nat.zero_add] at count
  cases r with
  | zero => exact absurd count counted
  | succ r =>
      have pairs : 0 < Registers.AllocStat.doubles (status.rmap r) := by
        rw [count] at counted
        exact Nat.pos_of_ne_zero counted
      obtain ⟨v, member, double⟩ := List.countP_pos_iff.mp pairs
      exact sound.refcount_behind member (of_decide_eq_true double)

theorem cloneEntry_cloned (sound : Sound numVars status)
    (represents : Represents numVars arrays h status)
    (cloned : Cloned arrays status n after rmap) :
    ∃ next rmap', h.cloneEntry (after, rmap) n = some (next, rmap') ∧
      Cloned arrays status (n + 1) next rmap' := by
  have count := congrFun represents.refcount n
  have lists := represents.lists n
  unfold cloneEntry
  dsimp only
  rw [count]
  cases vars : status.rmap n with
  | nil =>
      have null : h.rmap n = .null := by
        rw [vars] at lists
        generalize h.rmap n = word at lists ⊢
        cases lists with
        | none => rfl
        | many several => cases several
      rw [null]
      cases counted : status.refcount n with
      | zero => exact ⟨after, rmap, rfl, cloned.skip vars⟩
      | succ k =>
          cases k with
          | zero =>
              have put : Cloned arrays status (n + 1) after (Function.update rmap n .null) :=
                cloned.put (.refl _ after) (vars ▸ .none) nofun
              exact ⟨after, _, rfl, put⟩
          | succ k =>
              have same := refcount_of_empty sound vars (counted ▸ Nat.succ_ne_zero _)
              rw [counted, ← represents.refcount] at same
              exact ⟨after, rmap, if_pos same, cloned.skip vars⟩
  | cons first rest =>
      have counted := sound.refcount_of_mem (vars ▸ List.mem_cons_self : first ∈ status.rmap n)
      rw [counted, vars]
      rw [vars] at lists
      generalize h.rmap n = word at lists ⊢
      cases lists with
      | one =>
          exact ⟨after, _, rfl, cloned.put (.refl _ after) (vars ▸ .one first) nofun⟩
      | many several old contents =>
          obtain ⟨second, rest, rfl⟩ := List.exists_cons_of_length_pos
            (Nat.lt_of_succ_lt_succ several)
          rw [← cloned.keeps.same _ old id] at contents
          refine ⟨_, _, rfl, cloned.put (.alloc _ _ _) ?_ ?_⟩
          · rw [vars]
            exact .alloc several contents
          · rintro address ⟨⟩
            exact ⟨Nat.le_refl _, Nat.lt_succ_self _⟩

theorem clone_represents (sound : Sound numVars status)
    (represents : Represents numVars arrays h status) :
    ∃ after h', h.clone numVars arrays = some (after, h') ∧
      Represents numVars after h' status ∧ arrays.Keeps (fun _ => False) after ∧
        ∀ address, h'.Owns address → arrays.allocated ≤ address := by
  have run : ∀ n, ∃ after rmap,
      (List.range n).foldlM h.cloneEntry (arrays, fun _ => .null) = some (after, rmap) ∧
        Cloned arrays status n after rmap := by
    intro n
    induction n with
    | zero => exact ⟨arrays, _, rfl, .start arrays status⟩
    | succ n ih =>
        obtain ⟨after, rmap, done, cloned⟩ := ih
        obtain ⟨next, rmap', entered, cloned'⟩ := cloneEntry_cloned sound represents cloned
        refine ⟨next, rmap', ?_, cloned'⟩
        rw [List.range_succ, List.foldlM_append, done]
        refine Option.bind_eq_some_iff.mpr ⟨(after, rmap), rfl, ?_⟩
        exact Option.bind_eq_some_iff.mpr ⟨(next, rmap'), entered, rfl⟩
  obtain ⟨after, rmap, done, cloned⟩ := run (numOfLocations numVars)
  refine ⟨after, ⟨h.map, rmap, h.refcount⟩, ?_, ⟨represents.map, represents.refcount, ?_, ?_,
    cloned.apart⟩, cloned.keeps, ?_⟩
  · exact Option.bind_eq_some_iff.mpr ⟨(after, rmap), done, rfl⟩
  · intro r
    by_cases below : r < numOfLocations numVars
    · exact cloned.lists r below
    · have empty : status.rmap r = [] := by
        rw [List.eq_nil_iff_forall_not_mem]
        intro v member
        exact below (represents.inside_of_mem member)
      dsimp only
      rw [empty, cloned.rest r (Nat.le_of_not_lt below)]
      exact .none
  · intro r other
    by_contra outside
    exact other (cloned.rest r (Nat.le_of_not_lt outside))
  · intro address ⟨r, here⟩
    exact (cloned.fresh r address here).1

end LaTTe.Registers.InMemory.AllocStat
