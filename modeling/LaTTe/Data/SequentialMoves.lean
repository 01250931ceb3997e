import Mathlib.Logic.Function.Basic
import Mathlib.Logic.Nontrivial.Defs
import Mathlib.Data.List.Pairwise

namespace LaTTe.Data

/-! Moves that are made one after another, where they are meant all at once. -/

structure Move (Place : Type) where
  source : Place
  target : Place
  deriving DecidableEq, Repr

variable {Place Value : Type} [DecidableEq Place]

def Move.perform (move : Move Place) (contents : Place → Value) : Place → Value :=
  Function.update contents move.target (contents move.source)

def performAll (moves : List (Move Place)) (contents : Place → Value) : Place → Value :=
  moves.foldl (fun contents move => move.perform contents) contents

/-- In any contents, every target gets what its source had at first, and `stays` keep what
they had. -/
def Simultaneous (Value : Type) (moves : List (Move Place)) (stays : Place → Prop) : Prop :=
  ∀ contents : Place → Value,
    (∀ move ∈ moves, performAll moves contents move.target = contents move.source) ∧
    ∀ place, stays place → performAll moves contents place = contents place

structure Sequential (moves : List (Move Place)) (stays : Place → Prop) : Prop where
  ordered : moves.Pairwise fun earlier later => earlier.target ≠ later.source
  agree : ∀ move ∈ moves, ∀ other ∈ moves, move.target = other.target →
    move.source = other.source
  apart : ∀ move ∈ moves, ¬ stays move.target

section

variable {moves : List (Move Place)} {contents other : Place → Value} {stays : Place → Prop}

@[simp] theorem performAll_nil : performAll [] contents = contents := rfl

@[simp] theorem performAll_cons (move : Move Place) :
    performAll (move :: moves) contents = performAll moves (move.perform contents) := rfl

theorem performAll_append (moves moves' : List (Move Place)) (contents : Place → Value) :
    performAll (moves ++ moves') contents = performAll moves' (performAll moves contents) :=
  List.foldl_append

theorem Move.perform_target (move : Move Place) (contents : Place → Value) :
    move.perform contents move.target = contents move.source :=
  Function.update_self _ _ _

theorem Move.perform_of_ne (move : Move Place) (contents : Place → Value) {place : Place}
    (different : place ≠ move.target) : move.perform contents place = contents place :=
  Function.update_of_ne different _ _

theorem performAll_of_not_target {place : Place}
    (unwritten : ∀ move ∈ moves, move.target ≠ place) :
    performAll moves contents place = contents place := by
  induction moves generalizing contents with
  | nil => rfl
  | cons move rest ih =>
      rw [performAll_cons, ih fun later member => unwritten later (List.mem_cons_of_mem _ member)]
      exact move.perform_of_ne contents (unwritten move List.mem_cons_self).symm

theorem performAll_congr (same : Place → Prop) (agree : ∀ place, same place →
    contents place = other place) (reads : ∀ move ∈ moves, same move.source) {place : Place}
    (known : same place ∨ ∃ move ∈ moves, move.target = place) :
    performAll moves contents place = performAll moves other place := by
  induction moves generalizing contents other same with
  | nil =>
      rcases known with known | ⟨_, member, _⟩
      · exact agree place known
      · cases member
  | cons move rest ih =>
      have source := agree _ (reads move List.mem_cons_self)
      rw [performAll_cons, performAll_cons]
      apply ih fun place => same place ∨ place = move.target
      · intro place' known'
        by_cases written : place' = move.target
        · subst written
          rw [move.perform_target, move.perform_target, source]
        · rw [move.perform_of_ne _ written, move.perform_of_ne _ written]
          exact agree place' (known'.resolve_right written)
      · exact fun later member => .inl (reads later (List.mem_cons_of_mem _ member))
      · rcases known with known | ⟨move', member, rfl⟩
        · exact .inl (.inl known)
        · rcases List.mem_cons.mp member with rfl | member
          · exact .inl (.inr rfl)
          · exact .inr ⟨move', member, rfl⟩

omit [DecidableEq Place] in
theorem Sequential.tail {move : Move Place} (sequential : Sequential (move :: moves) stays) :
    Sequential moves stays where
  ordered := sequential.ordered.tail
  agree first member second member' :=
    sequential.agree first (List.mem_cons_of_mem _ member) second
      (List.mem_cons_of_mem _ member')
  apart first member := sequential.apart first (List.mem_cons_of_mem _ member)

theorem Sequential.simultaneous (sequential : Sequential moves stays) :
    Simultaneous Value moves stays := by
  intro contents
  constructor
  · induction moves generalizing contents with
    | nil => simp
    | cons move rest ih =>
        have unread : ∀ later ∈ rest, later.source ≠ move.target := fun later member =>
          ((List.pairwise_cons.mp sequential.ordered).1 later member).symm
        have rest_right : ∀ later ∈ rest, performAll (move :: rest) contents later.target =
            contents later.source := by
          intro later member
          rw [performAll_cons, ih sequential.tail _ later member]
          exact move.perform_of_ne contents (unread later member)
        intro first member
        rcases List.mem_cons.mp member with rfl | member
        · by_cases again : ∃ later ∈ rest, later.target = first.target
          · obtain ⟨later, member', same⟩ := again
            rw [← same, rest_right later member']
            rw [sequential.agree later (List.mem_cons_of_mem _ member') first
              List.mem_cons_self same]
          · rw [performAll_cons, performAll_of_not_target fun later member' same =>
              again ⟨later, member', same⟩]
            exact first.perform_target contents
        · exact rest_right first member
  · intro place stay
    exact performAll_of_not_target fun move member same =>
      sequential.apart move member (same ▸ stay)

theorem eq_of_same (Value : Type) [Nontrivial Value] {first second : Place}
    (same : ∀ contents : Place → Value, contents first = contents second) : first = second := by
  obtain ⟨value, value', different⟩ := exists_pair_ne Value
  by_contra apart
  have := same (Function.update (fun _ => value) first value')
  rw [Function.update_self, Function.update_of_ne (Ne.symm apart)] at this
  exact different this.symm

theorem unread_of_simultaneous [Nontrivial Value] {move : Move Place}
    (moved : move.source ≠ move.target)
    (simultaneous : Simultaneous Value (move :: moves) fun _ => False) :
    ∀ later ∈ moves, move.target ≠ later.source := by
  intro later member wanted
  obtain ⟨value, value', different⟩ := exists_pair_ne Value
  have lost : move.perform (Function.update (fun _ => value) move.target value') =
      move.perform fun _ => value := by
    funext place
    by_cases written : place = move.target
    · subst written
      rw [move.perform_target, move.perform_target, Function.update_of_ne moved]
    · rw [move.perform_of_ne _ written, move.perform_of_ne _ written,
        Function.update_of_ne written]
  have right := (simultaneous (Function.update (fun _ => value) move.target value')).1 later
    (List.mem_cons_of_mem _ member)
  have right' := (simultaneous fun _ => value).1 later (List.mem_cons_of_mem _ member)
  rw [performAll_cons, lost, ← wanted, Function.update_self] at right
  exact different (right'.symm.trans right)

theorem ordered_of_simultaneous [Nontrivial Value]
    (moved : ∀ move ∈ moves, move.source ≠ move.target)
    (simultaneous : Simultaneous Value moves fun _ => False) :
    moves.Pairwise fun earlier later => earlier.target ≠ later.source := by
  induction moves with
  | nil => exact .nil
  | cons move rest ih =>
      have unread := unread_of_simultaneous (moved move List.mem_cons_self) simultaneous
      refine .cons unread (ih (fun later member => moved later (List.mem_cons_of_mem _ member))
        fun contents => ⟨fun later member => ?_, nofun⟩)
      -- What the first move writes is not read, so the rest does not depend on it.
      rw [performAll_congr (· ≠ move.target)
        (fun place different => (move.perform_of_ne contents different).symm)
        (fun later member => (unread later member).symm) (.inr ⟨later, member, rfl⟩)]
      exact (simultaneous contents).1 later (List.mem_cons_of_mem _ member)

theorem simultaneous_iff [Nontrivial Value]
    (moved : ∀ move ∈ moves, move.source ≠ move.target) :
    Simultaneous Value moves stays ↔ Sequential moves stays := by
  constructor
  · intro simultaneous
    refine ⟨?_, ?_, ?_⟩
    · exact ordered_of_simultaneous moved fun contents => ⟨(simultaneous contents).1, nofun⟩
    · intro move member other member' same
      apply eq_of_same Value
      intro contents
      rw [← (simultaneous contents).1 move member, same, (simultaneous contents).1 other member']
    · intro move member stay
      apply moved move member
      apply eq_of_same Value
      intro contents
      rw [← (simultaneous contents).1 move member]
      exact (simultaneous contents).2 _ stay
  · exact Sequential.simultaneous

end

end LaTTe.Data
