import Mathlib.Data.List.Basic
import Mathlib.Logic.Function.Basic

namespace LaTTe.Data

universe u

/-! Arrays that are allocated one after the other, and kept. -/

structure Arrays (α : Type u) where
  contents : Nat → List α
  allocated : Nat

namespace Arrays

variable {α : Type u}

def alloc (arrays : Arrays α) (items : List α) : Arrays α where
  contents := Function.update arrays.contents arrays.allocated items
  allocated := arrays.allocated + 1

def write (arrays : Arrays α) (address : Nat) (items : List α) : Arrays α :=
  { arrays with contents := Function.update arrays.contents address items }

structure Keeps (own : Nat → Prop) (before after : Arrays α) : Prop where
  grows : before.allocated ≤ after.allocated
  same : ∀ address < before.allocated, ¬ own address →
    after.contents address = before.contents address

namespace Keeps

variable {own more : Nat → Prop} {first second third : Arrays α}

theorem refl (own : Nat → Prop) (arrays : Arrays α) : Keeps own arrays arrays :=
  ⟨Nat.le_refl _, fun _ _ _ => rfl⟩

theorem trans (before : Keeps own first second) (after : Keeps more second third)
    (included : ∀ address, more address → own address ∨ first.allocated ≤ address) :
    Keeps own first third := by
  refine ⟨Nat.le_trans before.grows after.grows, fun address old other => ?_⟩
  rw [after.same address (Nat.lt_of_lt_of_le old before.grows), before.same address old other]
  intro changed
  rcases included address changed with mine | new
  · exact other mine
  · exact Nat.not_lt_of_le new old

theorem alloc (own : Nat → Prop) (arrays : Arrays α) (items : List α) :
    Keeps own arrays (arrays.alloc items) :=
  ⟨Nat.le_succ _, fun _ old _ => Function.update_of_ne (Nat.ne_of_lt old) ..⟩

theorem write {address : Nat} (mine : own address) (arrays : Arrays α) (items : List α) :
    Keeps own arrays (arrays.write address items) := by
  refine ⟨Nat.le_refl _, fun other _ foreign => Function.update_of_ne ?_ ..⟩
  rintro rfl
  exact foreign mine

end Keeps

/-- An item is taken out of the first `count`, and those behind it move up.  The last of them
stays where it was, too. -/
def closeGap (items : List α) (i count : Nat) : List α :=
  items.take i ++ (items.drop (i + 1)).take (count - i - 1) ++ items.drop (count - 1)

theorem take_closeGap {items : List α} {i count : Nat} (inside : i < count)
    (enough : count ≤ items.length) :
    (closeGap items i count).take (count - 1) = (items.take count).eraseIdx i := by
  have length : (items.take i ++ (items.drop (i + 1)).take (count - i - 1)).length = count - 1 := by
    simp only [List.length_append, List.length_take, List.length_drop]
    omega
  rw [closeGap, List.take_left' length, List.eraseIdx_eq_take_drop_succ, List.take_take,
    List.drop_take, Nat.min_eq_left (Nat.le_of_lt inside), Nat.sub_sub]

end Arrays

end LaTTe.Data
