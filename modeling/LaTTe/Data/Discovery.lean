import Mathlib.Data.List.Infix
import Mathlib.Data.List.Nodup
import Mathlib.Data.List.Perm.Subperm

namespace LaTTe.Data

universe u

variable {α : Type u} [DecidableEq α]

/-! Breadth-first discovery in a list that is also its own queue. -/

/-- The allowed items among `pointers` that have not been found yet, behind the found ones. -/
def discover (allowed found pointers : List α) : List α :=
  pointers.foldl (fun found p => if p ∈ allowed ∧ p ∉ found then found ++ [p] else found) found

def explore (references : α → List α) (allowed : List α) : List α → Nat → Nat → List α
  | found, _, 0 => found
  | found, position, count + 1 =>
      match found[position]? with
      | none => found
      | some p =>
          explore references allowed (discover allowed found (references p)) (position + 1) count

variable {references : α → List α} {allowed found pointers : List α} {p q : α}

theorem discover_cons :
    discover allowed found (p :: pointers) =
      discover allowed (discover allowed found [p]) pointers :=
  rfl

theorem discover_fresh (isAllowed : p ∈ allowed) (fresh : p ∉ found) :
    discover allowed found [p] = found ++ [p] :=
  if_pos ⟨isAllowed, fresh⟩

theorem discover_known (known : p ∈ allowed → p ∈ found) : discover allowed found [p] = found :=
  if_neg fun ⟨isAllowed, fresh⟩ => fresh (known isAllowed)

theorem prefix_discover (allowed found pointers : List α) :
    found <+: discover allowed found pointers := by
  induction pointers generalizing found with
  | nil => exact List.prefix_refl found
  | cons p rest ih =>
      rw [discover_cons]
      refine List.IsPrefix.trans ?_ (ih _)
      by_cases fresh : p ∈ allowed ∧ p ∉ found
      · rw [discover_fresh fresh.1 fresh.2]
        exact List.prefix_append _ _
      · rw [discover_known fun isAllowed => by_contra fun new => fresh ⟨isAllowed, new⟩]

theorem mem_discover :
    q ∈ discover allowed found pointers ↔ q ∈ found ∨ q ∈ allowed ∧ q ∈ pointers := by
  induction pointers generalizing found with
  | nil => simp [discover]
  | cons p rest ih =>
      rw [discover_cons, ih, List.mem_cons]
      by_cases fresh : p ∈ allowed ∧ p ∉ found
      · rw [discover_fresh fresh.1 fresh.2, List.mem_append, List.mem_singleton]
        grind
      · have known : p ∈ allowed → p ∈ found :=
          fun isAllowed => by_contra fun new => fresh ⟨isAllowed, new⟩
        rw [discover_known known]
        grind

theorem discover_nodup (distinct : found.Nodup) : (discover allowed found pointers).Nodup := by
  induction pointers generalizing found with
  | nil => exact distinct
  | cons p rest ih =>
      rw [discover_cons]
      apply ih
      by_cases fresh : p ∈ allowed ∧ p ∉ found
      · rw [discover_fresh fresh.1 fresh.2]
        exact List.nodup_append.mpr ⟨distinct, List.nodup_singleton p,
          fun q member r same equal => fresh.2 (by rwa [← List.mem_singleton.mp same, ← equal])⟩
      · rwa [discover_known fun isAllowed => by_contra fun new => fresh ⟨isAllowed, new⟩]

theorem discover_of_known (known : ∀ q ∈ pointers, q ∈ allowed → q ∈ found) :
    discover allowed found pointers = found := by
  induction pointers with
  | nil => rfl
  | cons p rest ih =>
      rw [discover_cons, discover_known (known p (by simp))]
      exact ih fun q member => known q (by simp [member])

theorem discover_of_fresh (distinct : pointers.Nodup)
    (fresh : ∀ q ∈ pointers, q ∈ allowed ∧ q ∉ found) :
    discover allowed found pointers = found ++ pointers := by
  induction pointers generalizing found with
  | nil => exact (List.append_nil found).symm
  | cons p rest ih =>
      obtain ⟨absent, restDistinct⟩ := List.nodup_cons.mp distinct
      obtain ⟨isAllowed, new⟩ := fresh p (by simp)
      rw [discover_cons, discover_fresh isAllowed new, ih restDistinct, List.append_assoc]
      · rfl
      · intro q member
        obtain ⟨isAllowed, new⟩ := fresh q (by simp [member])
        refine ⟨isAllowed, fun inFound => ?_⟩
        rcases List.mem_append.mp inFound with old | same
        · exact new old
        · exact absent (by rwa [← List.mem_singleton.mp same])

theorem explore_none {position : Nat} (ended : found.length ≤ position) (count : Nat) :
    explore references allowed found position count = found := by
  cases count with
  | zero => rfl
  | succ count => rw [explore, List.getElem?_eq_none ended]

theorem explore_succ (found : List α) (position count : Nat) :
    explore references allowed found position (count + 1) =
      match (explore references allowed found position count)[position + count]? with
      | none => explore references allowed found position count
      | some p =>
          discover allowed (explore references allowed found position count) (references p) := by
  induction count generalizing found position with
  | zero =>
      rw [explore, explore, Nat.add_zero]
      cases found[position]? with
      | none => rfl
      | some p => rfl
  | succ count ih =>
      cases entry : found[position]? with
      | none =>
          have ended := List.getElem?_eq_none_iff.mp entry
          rw [explore_none ended, explore_none ended, List.getElem?_eq_none (by omega)]
      | some p =>
          have visit : ∀ n, explore references allowed found position (n + 1) =
              explore references allowed (discover allowed found (references p))
                (position + 1) n := by
            intro n
            rw [explore, entry]
          rw [visit, visit, ih, Nat.add_assoc, Nat.add_comm 1 count]

theorem explore_visit {position count : Nat}
    (visits : (explore references allowed found position count)[position + count]? = some p) :
    explore references allowed found position (count + 1) =
      discover allowed (explore references allowed found position count) (references p) := by
  rw [explore_succ, visits]

theorem prefix_explore (references : α → List α) (allowed found : List α) (position : Nat)
    {count more : Nat} (le : count ≤ more) :
    explore references allowed found position count <+:
      explore references allowed found position more := by
  induction le with
  | refl => exact List.prefix_refl _
  | step _ ih =>
      refine ih.trans ?_
      rw [explore_succ]
      split
      · exact List.prefix_refl _
      · exact prefix_discover _ _ _

theorem explore_stable {position count more : Nat}
    (ended : (explore references allowed found position count).length ≤ position + count)
    (le : count ≤ more) :
    explore references allowed found position more =
      explore references allowed found position count := by
  induction le with
  | refl => rfl
  | step le ih =>
      have : count ≤ _ := le
      rw [explore_succ, ih, List.getElem?_eq_none (by omega)]

theorem explore_length_le {position count : Nat}
    (ended : (explore references allowed found position count).length ≤ position + count)
    (more : Nat) :
    (explore references allowed found position more).length ≤
      (explore references allowed found position count).length := by
  rcases Nat.le_total count more with le | ge
  · rw [explore_stable ended le]
  · exact (prefix_explore references allowed found position ge).length_le

theorem explore_nodup (distinct : found.Nodup) (position count : Nat) :
    (explore references allowed found position count).Nodup := by
  induction count with
  | zero => exact distinct
  | succ count ih =>
      rw [explore_succ]
      split
      · exact ih
      · exact discover_nodup ih

theorem explore_allowed (included : ∀ q ∈ found, q ∈ allowed) (position count : Nat) :
    ∀ q ∈ explore references allowed found position count, q ∈ allowed := by
  induction count with
  | zero => exact included
  | succ count ih =>
      rw [explore_succ]
      split
      · exact ih
      · intro q member
        rcases mem_discover.mp member with old | new
        · exact ih q old
        · exact new.1

theorem explore_ended (distinct : found.Nodup) (included : ∀ q ∈ found, q ∈ allowed) :
    (explore references allowed found 0 allowed.length).length ≤ 0 + allowed.length := by
  rw [Nat.zero_add]
  exact (List.subperm_of_subset (explore_nodup distinct 0 _)
    (explore_allowed included 0 _)).length_le

theorem explore_closed {count i : Nat} (visited : i < count)
    (entry : (explore references allowed found 0 count)[i]? = some p)
    (refers : q ∈ references p) (isAllowed : q ∈ allowed) :
    q ∈ explore references allowed found 0 count := by
  have before := prefix_explore references allowed found 0 visited
  by_cases inside : i < (explore references allowed found 0 i).length
  · have same :=
      (prefix_explore references allowed found 0 (Nat.le_of_lt visited)).getElem inside
    have read : (explore references allowed found 0 i)[0 + i]? = some p := by
      rw [Nat.zero_add, List.getElem?_eq_getElem inside, same]
      rw [← entry, List.getElem?_eq_getElem]
    apply before.subset
    rw [explore_visit read]
    exact mem_discover.mpr (.inr ⟨isAllowed, refers⟩)
  · have ended : (explore references allowed found 0 i).length ≤ 0 + i := by omega
    rw [explore_stable ended (Nat.le_of_lt visited)] at entry
    rw [List.getElem?_eq_none (by omega)] at entry
    cases entry

theorem explore_of_closed {count : Nat}
    (closed : ∀ i p, i < count → found[i]? = some p → ∀ q ∈ references p, q ∈ allowed →
      q ∈ found) : explore references allowed found 0 count = found := by
  induction count with
  | zero => rfl
  | succ count ih =>
      have same := ih fun i p below => closed i p (Nat.lt_succ_of_lt below)
      rw [explore_succ, same, Nat.zero_add]
      split
      · rfl
      · next p entry => exact discover_of_known (closed count p (Nat.lt_succ_self count) entry)

end LaTTe.Data
