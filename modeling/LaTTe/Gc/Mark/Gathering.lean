import LaTTe.Gc.Mark.Growth
import Mathlib.Data.Finset.Card

namespace LaTTe.Gc

open LaTTe.Data

/-! While nothing has been popped the mark stack is the set of the marked objects. -/

/-- What a call of `mark` that returns has done. -/
inductive MarkStep (heap : Heap) (marker : Marker) (p : Nat) : Marker → Prop where
  | skip (done : p = 0 ∨ marker.isMarked p = true) : MarkStep heap marker p marker
  | push (nonzero : p ≠ 0) (unmarked : marker.isMarked p = false)
      (below : marker.stack.length < marker.limit) :
      MarkStep heap marker p { setMark marker p with stack := marker.stack ++ [p] }
  | giveUp (nonzero : p ≠ 0) (unmarked : marker.isMarked p = false)
      (full : marker.limit ≤ marker.stack.length) (collecting : marker.state = .collect) :
      MarkStep heap marker p
        { setMark marker p with
          saveCursor := marker.cursor
          cursor := marker.stack.length + 1
          limit := heap.stackSize
          state := .normal
          stack := marker.stack ++ [p] }
  | overflow (nonzero : p ≠ 0) (unmarked : marker.isMarked p = false)
      (full : marker.limit ≤ marker.stack.length) (settled : marker.state ≠ .collect) :
      MarkStep heap marker p { setMark marker p with state := .overflow }

def markedObjects (objects : List Nat) (marker : Marker) : Finset Nat :=
  objects.toFinset.filter fun p => marker.isMarked p = true

/-- As long as the marker is in `state`, with its bound at `limit`, the stack is the set
of the marked objects; it is in another state only if more than `limit` are marked. -/
structure Gathering (objects : List Nat) (state : MarkState) (limit : Nat)
    (marker : Marker) : Prop where
  bounded : marker.state = state → marker.limit = limit
  distinct : marker.state = state → marker.stack.Nodup
  listed : marker.state = state →
    ∀ p ∈ objects, marker.isMarked p = true ↔ p ∈ marker.stack
  beyond : marker.state ≠ state → limit < (markedObjects objects marker).card
  never : marker.state = .collect → state = .collect

section

variable {heap : Heap} {memory : Memory} {objects : List Nat}
  {reach : Nat → Prop} {marker next : Marker} {state : MarkState} {limit p : Nat}

theorem push_eq_some (pushed : push heap marker p = some next) :
    next = { marker with stack := marker.stack ++ [p] } := by
  unfold push at pushed
  split at pushed
  · exact (Option.some.inj pushed).symm
  · contradiction

theorem mark_step (run : mark heap marker p = some next) : MarkStep heap marker p next := by
  by_cases done : p = 0 ∨ marker.isMarked p = true
  · rw [mark, if_pos done] at run
    obtain rfl := Option.some.inj run
    exact .skip done
  · rw [mark, if_neg done] at run
    obtain ⟨nonzero, unmarked⟩ := not_or.mp done
    have unmarked : marker.isMarked p = false := by simpa using unmarked
    change (if marker.stack.length < marker.limit then
      push heap (setMark marker p) p else markOverflow heap (setMark marker p) p) =
        some next at run
    split at run
    · rename_i below
      rw [push_eq_some run]
      exact .push nonzero unmarked below
    · rename_i full
      cases state : marker.state with
      | collect =>
          rw [markOverflow, show (setMark marker p).state = .collect from state] at run
          rw [push_eq_some run]
          exact .giveUp nonzero unmarked (Nat.le_of_not_lt full) state
      | normal =>
          rw [markOverflow, show (setMark marker p).state = .normal from state] at run
          obtain rfl := Option.some.inj run
          exact .overflow nonzero unmarked (Nat.le_of_not_lt full) (by simp [state])
      | overflow =>
          rw [markOverflow, show (setMark marker p).state = .overflow from state] at run
          obtain rfl := Option.some.inj run
          exact .overflow nonzero unmarked (Nat.le_of_not_lt full) (by simp [state])

theorem mem_markedObjects {q : Nat} :
    q ∈ markedObjects objects marker ↔ q ∈ objects ∧ marker.isMarked q = true := by
  simp [markedObjects]

theorem markedObjects_mono (keeps : ∀ q, marker.isMarked q = true → next.isMarked q = true) :
    (markedObjects objects marker).card ≤ (markedObjects objects next).card := by
  apply Finset.card_le_card
  intro q member
  rw [mem_markedObjects] at member ⊢
  exact ⟨member.1, keeps q member.2⟩

theorem markedObjects_setMark_lt (member : p ∈ objects) (unmarked : marker.isMarked p = false) :
    (markedObjects objects marker).card < (markedObjects objects (setMark marker p)).card := by
  apply Finset.card_lt_card
  constructor
  · intro q inside
    rw [mem_markedObjects] at inside ⊢
    exact ⟨inside.1, isMarked_setMark_of_isMarked marker p inside.2⟩
  · intro included
    have inside := included (mem_markedObjects.mpr ⟨member, isMarked_setMark_self marker p⟩)
    rw [mem_markedObjects, unmarked] at inside
    simp at inside

namespace Gathering

theorem card_eq (gathering : Gathering objects state limit marker)
    (entries : ∀ q ∈ marker.stack, q ∈ objects) (current : marker.state = state) :
    (markedObjects objects marker).card = marker.stack.length := by
  rw [← List.toFinset_card_of_nodup (gathering.distinct current)]
  congr 1
  ext q
  rw [mem_markedObjects, List.mem_toFinset]
  constructor
  · rintro ⟨member, marked⟩
    exact (gathering.listed current q member).mp marked
  · intro inStack
    have member := entries q inStack
    exact ⟨member, (gathering.listed current q member).mpr inStack⟩

theorem beyond_mono (gathering : Gathering objects state limit marker)
    (left : marker.state ≠ state)
    (keeps : ∀ q, marker.isMarked q = true → next.isMarked q = true) :
    limit < (markedObjects objects next).card :=
  Nat.lt_of_lt_of_le (gathering.beyond left) (markedObjects_mono keeps)

theorem settled (gathering : Gathering objects .collect limit marker)
    (left : marker.state ≠ .collect) (stays : next.state ≠ .collect)
    (keeps : ∀ q, marker.isMarked q = true → next.isMarked q = true) :
    Gathering objects .collect limit next where
  bounded := fun collecting => absurd collecting stays
  distinct := fun collecting => absurd collecting stays
  listed := fun collecting => absurd collecting stays
  beyond := fun _ => gathering.beyond_mono left keeps
  never := fun _ => rfl

theorem exceeds (member : p ∈ objects) (gathering : Gathering objects state limit marker)
    (entries : ∀ q ∈ marker.stack, q ∈ objects) (unmarked : marker.isMarked p = false)
    (full : marker.limit ≤ marker.stack.length) (memory : next.memory = (setMark marker p).memory) :
    limit < (markedObjects objects next).card := by
  have more := markedObjects_setMark_lt member unmarked
  have same : (markedObjects objects (setMark marker p)).card ≤
      (markedObjects objects next).card := by
    apply markedObjects_mono
    intro q marked
    rwa [Marker.isMarked, memory]
  by_cases current : marker.state = state
  · have count := gathering.card_eq entries current
    have := gathering.bounded current
    omega
  · have := gathering.beyond current
    omega

variable (room : ∀ q ∈ objects, gcHead ≤ q)

include room

theorem push (member : p ∈ objects) (gathering : Gathering objects state limit marker)
    (unmarked : marker.isMarked p = false) :
    Gathering objects state limit
      { setMark marker p with stack := marker.stack ++ [p] } where
  bounded := gathering.bounded
  distinct := by
    intro current
    have absent : p ∉ marker.stack := by
      intro inStack
      rw [(gathering.listed current p member).mpr inStack] at unmarked
      contradiction
    rw [List.nodup_append]
    refine ⟨gathering.distinct current, List.nodup_singleton p, ?_⟩
    intro q inStack other same equal
    rw [List.mem_singleton.mp same] at equal
    rw [equal] at inStack
    exact absent inStack
  listed := by
    intro current q inside
    change (setMark marker p).isMarked q = true ↔ q ∈ marker.stack ++ [p]
    rw [List.mem_append, List.mem_singleton, ← gathering.listed current q inside]
    constructor
    · exact isMarked_of_isMarked_setMark room member inside
    · rintro (marked | rfl)
      · exact isMarked_setMark_of_isMarked marker p marked
      · exact isMarked_setMark_self marker q
  beyond := fun left =>
    gathering.beyond_mono left fun _ marked => isMarked_setMark_of_isMarked marker p marked
  never := gathering.never

theorem mark (quiet : state ≠ .overflow)
    (gathering : Gathering objects state limit marker)
    (entries : ∀ q ∈ marker.stack, q ∈ objects)
    (object : p ≠ 0 → marker.isMarked p = false → p ∈ objects)
    (step : MarkStep heap marker p next) : Gathering objects state limit next := by
  cases step with
  | skip => exact gathering
  | push nonzero unmarked => exact gathering.push room (object nonzero unmarked) unmarked
  | giveUp nonzero unmarked full collecting =>
      have member := object nonzero unmarked
      have collect := gathering.never collecting
      refine ⟨?_, ?_, ?_, fun _ => gathering.exceeds member entries unmarked full rfl, ?_⟩ <;>
        simp [collect]
  | overflow nonzero unmarked full settled =>
      have member := object nonzero unmarked
      refine ⟨?_, ?_, ?_, fun _ => gathering.exceeds member entries unmarked full rfl, ?_⟩ <;>
        simp [Ne.symm quiet]

end Gathering

theorem Consistent.object_of_unmarked
    (consistent : Consistent heap memory objects reach marker)
    (markable : Markable memory objects p) (nonzero : p ≠ 0)
    (unmarked : marker.isMarked p = false) : p ∈ objects := by
  rcases markable with zero | member | marked
  · contradiction
  · exact member
  · rw [consistent.isMarked_of_marked marked] at unmarked
    contradiction

theorem markAll_gathering (room : ∀ q ∈ objects, gcHead ≤ q) (pointers : List Nat)
    (consistent : Consistent heap memory objects reach marker)
    (markable : ∀ q ∈ pointers, Markable memory objects q)
    (reached : ∀ q ∈ pointers, q ∈ objects → reach q) (quiet : state ≠ .overflow)
    (gathering : Gathering objects state limit marker)
    (run : pointers.foldlM (mark heap) marker = some next) :
    Consistent heap memory objects reach next ∧ Gathering objects state limit next := by
  induction pointers generalizing marker with
  | nil =>
      obtain rfl := Option.some.inj run
      exact ⟨consistent, gathering⟩
  | cons p rest ih =>
      rw [List.foldlM_cons, Option.bind_eq_bind, Option.bind_eq_some_iff] at run
      obtain ⟨middle, first, run⟩ := run
      obtain ⟨_, _, again, keeps, _⟩ := mark_spec consistent room
        (markable p (by simp)) (reached p (by simp))
      obtain rfl := Option.some.inj (first.symm.trans again)
      apply ih keeps (fun q hq => markable q (by simp [hq]))
        (fun q hq => reached q (by simp [hq])) _ run
      exact gathering.mark room quiet (fun q hq => (consistent.entries q hq).1)
        (consistent.object_of_unmarked (markable p (by simp))) (mark_step first)

end

end LaTTe.Gc
