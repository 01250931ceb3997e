import Mathlib.Data.List.Chain

namespace LaTTe.Data

universe u

variable {α : Type u}

/-! Circular doubly linked lists through a sentinel.  Links are functions on pointers, and a
list is described by its nodes in order. -/

def Joined (next prev : α → α) (node follower : α) : Prop :=
  next node = follower ∧ prev follower = node

structure Ring (next prev : α → α) (sentinel : α) (nodes : List α) : Prop where
  joined : (sentinel :: (nodes ++ [sentinel])).IsChain (Joined next prev)
  distinct : (sentinel :: nodes).Nodup

section

variable {next prev next' prev' : α → α} {sentinel node : α} {nodes left right : List α}

theorem joined_congr {list : List α} (joined : list.IsChain (Joined next prev))
    (sameNext : ∀ node ∈ list.dropLast, next' node = next node)
    (samePrev : ∀ node ∈ list.tail, prev' node = prev node) :
    list.IsChain (Joined next' prev') := by
  induction joined with
  | nil => exact .nil
  | singleton node => exact .singleton node
  | cons_cons pair rest ih =>
      rename_i first second behind
      refine .cons_cons ⟨?_, ?_⟩ (ih ?_ ?_)
      · rw [sameNext first (by simp), pair.1]
      · rw [samePrev second (by simp), pair.2]
      · intro node member
        exact sameNext node (by simp [member])
      · intro node member
        exact samePrev node (List.mem_cons_of_mem _ member)

theorem ne_getLast_of_mem_dropLast {list : List α} (distinct : list.Nodup)
    (nonempty : list ≠ []) (member : node ∈ list.dropLast) : node ≠ list.getLast nonempty := by
  rw [← List.dropLast_append_getLast nonempty, List.nodup_append] at distinct
  exact distinct.2.2 node member _ (List.mem_singleton_self _)

theorem ne_head_of_mem_tail {list : List α} (distinct : list.Nodup) (nonempty : list ≠ [])
    (member : node ∈ list.tail) : node ≠ list.head nonempty := by
  cases list with
  | nil => cases member
  | cons first rest =>
      rintro rfl
      exact (List.nodup_cons.mp distinct).1 member

namespace Ring

theorem empty (forward : next sentinel = sentinel) (backward : prev sentinel = sentinel) :
    Ring next prev sentinel [] where
  joined := .cons_cons ⟨forward, backward⟩ (.singleton sentinel)
  distinct := by simp

theorem congr (ring : Ring next prev sentinel nodes)
    (sameNext : ∀ node ∈ sentinel :: nodes, next' node = next node)
    (samePrev : ∀ node ∈ sentinel :: nodes, prev' node = prev node) :
    Ring next' prev' sentinel nodes where
  joined := by
    apply joined_congr ring.joined
    · intro node member
      rw [← List.cons_append, List.dropLast_concat] at member
      exact sameNext node member
    · intro node member
      apply samePrev
      rw [List.tail_cons, List.mem_append, List.mem_singleton] at member
      exact List.mem_cons.mpr member.symm
  distinct := ring.distinct

theorem first (ring : Ring next prev sentinel nodes) :
    next sentinel = (nodes ++ [sentinel]).head (by simp) := by
  have joined := ring.joined
  cases nodes with
  | nil => exact joined.rel.1
  | cons node rest => exact joined.rel.1

theorem first_mem (ring : Ring next prev sentinel nodes) : next sentinel ∈ sentinel :: nodes := by
  have member : next sentinel ∈ nodes ++ [sentinel] := ring.first ▸ List.head_mem _
  rw [List.mem_append, List.mem_singleton] at member
  exact List.mem_cons.mpr member.symm

theorem around (ring : Ring next prev sentinel (left ++ node :: right)) :
    (sentinel :: left).getLast (by simp) = prev node ∧
      next node = (right ++ [sentinel]).head (by simp) := by
  have joined := ring.joined
  rw [List.append_assoc, List.cons_append, ← List.cons_append] at joined
  obtain ⟨_, behind, seam⟩ := List.isChain_append.mp joined
  constructor
  · exact (seam _ (List.getLast?_eq_some_getLast _) node rfl).2.symm
  · cases right with
    | nil => exact behind.rel.1
    | cons follower rest => exact behind.rel.1

theorem around_mem (ring : Ring next prev sentinel (left ++ node :: right)) :
    prev node ∈ sentinel :: left ∧ next node ∈ right ++ [sentinel] := by
  obtain ⟨before, after⟩ := ring.around
  exact ⟨before ▸ List.getLast_mem _, after ▸ List.head_mem _⟩

/-- Link a node in behind the sentinel. -/
theorem link (ring : Ring next prev sentinel nodes) (fresh : node ∉ sentinel :: nodes)
    (forward : next' sentinel = node) (backward : prev' node = sentinel)
    (onward : next' node = next sentinel) (back : prev' (next sentinel) = node)
    (sameNext : ∀ other ∈ nodes, next' other = next other)
    (samePrev : ∀ other ∈ sentinel :: nodes, other ≠ next sentinel →
      prev' other = prev other) :
    Ring next' prev' sentinel (node :: nodes) where
  joined := by
    have first := ring.first
    have distinct := ring.distinct
    have behind := ring.joined.tail
    refine .cons_cons ⟨forward, backward⟩ ?_
    cases nodes with
    | nil =>
        have first : next sentinel = sentinel := first
        rw [first] at onward back
        exact .cons_cons ⟨onward, back⟩ (.singleton sentinel)
    | cons follower rest =>
        obtain ⟨outside, apart⟩ := List.nodup_cons.mp distinct
        have first : next sentinel = follower := first
        refine .cons_cons ⟨onward.trans first, first ▸ back⟩ ?_
        apply joined_congr behind
        · intro other member
          rw [List.tail_cons, List.dropLast_concat] at member
          exact sameNext other member
        · intro other member
          rw [List.tail_cons, List.cons_append, List.tail_cons, List.mem_append,
            List.mem_singleton] at member
          rw [first] at samePrev
          rcases member with inRest | rfl
          · apply samePrev other (by simp [inRest])
            rintro rfl
            exact (List.nodup_cons.mp apart).1 inRest
          · apply samePrev other (by simp)
            rintro rfl
            exact outside (by simp)
  distinct := by
    obtain ⟨outside, apart⟩ := List.nodup_cons.mp ring.distinct
    rw [List.mem_cons, not_or] at fresh
    refine List.nodup_cons.mpr ⟨?_, List.nodup_cons.mpr ⟨fresh.2, apart⟩⟩
    rw [List.mem_cons, not_or]
    exact ⟨Ne.symm fresh.1, outside⟩

/-- Link a node out. -/
theorem unlink (ring : Ring next prev sentinel (left ++ node :: right))
    (forward : next' (prev node) = next node) (backward : prev' (next node) = prev node)
    (sameNext : ∀ other ∈ sentinel :: (left ++ right), other ≠ prev node →
      next' other = next other)
    (samePrev : ∀ other ∈ sentinel :: (left ++ right), other ≠ next node →
      prev' other = prev other) :
    Ring next' prev' sentinel (left ++ right) where
  joined := by
    obtain ⟨before, after⟩ := ring.around
    obtain ⟨beforeIn, afterIn⟩ := ring.around_mem
    have distinct := ring.distinct
    have joined := ring.joined
    rw [List.append_assoc, List.cons_append, ← List.cons_append] at joined
    obtain ⟨front, behind, _⟩ := List.isChain_append.mp joined
    rw [← List.cons_append] at distinct
    obtain ⟨leftDistinct, nodeRight, apart⟩ := List.nodup_append.mp distinct
    have rightDistinct : (right ++ [sentinel]).Nodup := by
      rw [List.nodup_append]
      refine ⟨(List.nodup_cons.mp nodeRight).2, by simp, ?_⟩
      intro other member last isLast
      rw [List.mem_singleton.mp isLast]
      exact (apart sentinel (by simp) other (by simp [member])).symm
    rw [List.append_assoc, ← List.cons_append]
    refine List.IsChain.append (joined_congr front ?_ ?_) (joined_congr behind.tail ?_ ?_) ?_
    · intro other member
      have inFront : other ∈ sentinel :: left := (List.dropLast_sublist _).subset member
      apply sameNext other (by simp only [List.mem_cons, List.mem_append] at *; tauto)
      rw [← before]
      exact ne_getLast_of_mem_dropLast leftDistinct (by simp) member
    · intro other member
      rw [List.tail_cons] at member
      apply samePrev other (by simp [member])
      rintro rfl
      rcases List.mem_append.mp afterIn with inRight | isLast
      · exact apart _ (List.mem_cons_of_mem _ member) _ (List.mem_cons_of_mem _ inRight) rfl
      · rw [List.mem_singleton.mp isLast] at member
        exact (List.nodup_cons.mp leftDistinct).1 member
    · intro other member
      rw [List.dropLast_concat] at member
      apply sameNext other (by simp [member])
      rintro rfl
      exact apart _ beforeIn _ (List.mem_cons_of_mem _ member) rfl
    · intro other member
      have inside : other ∈ right ++ [sentinel] := List.mem_of_mem_tail member
      apply samePrev other (by simp only [List.mem_cons, List.mem_append] at *; tauto)
      rw [after]
      exact ne_head_of_mem_tail rightDistinct (by simp) member
    · intro last isLast first isFirst
      rw [List.getLast?_eq_some_getLast (by simp), before] at isLast
      rw [List.head?_eq_some_head (by simp), ← after] at isFirst
      obtain rfl := Option.some.inj isLast
      obtain rfl := Option.some.inj isFirst
      exact ⟨forward, backward⟩
  distinct := by
    have sublist : (sentinel :: (left ++ right)).Sublist
        (sentinel :: (left ++ node :: right)) :=
      ((List.sublist_cons_self node right).append_left left).cons_cons sentinel
    exact ring.distinct.sublist sublist

end Ring

end

end LaTTe.Data
