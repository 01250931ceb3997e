import Mathlib.Data.List.Basic
import Mathlib.Data.List.Induction

namespace LaTTe.Data

universe u

variable {α : Type u}

/-! Reversal of a part of an array in place. -/

/-- Exchanges the ends of the `n` entries from `start` on and goes on with those between them.
An access behind the end is no defined behaviour. -/
def reverseEnds (entries : List α) (start : Nat) : Nat → Option (List α)
  | 0 => some entries
  | 1 => some entries
  | n + 2 => do
      let first ← entries[start]?
      let last ← entries[start + n + 1]?
      reverseEnds ((entries.set start last).set (start + n + 1) first) (start + 1) n

theorem set_middle (before after : List α) (old new : α) :
    (before ++ old :: after).set before.length new = before ++ new :: after := by
  rw [List.set_append_right _ _ (Nat.le_refl _), Nat.sub_self, List.set_cons_zero]

theorem reverseEnds_part (before part after : List α) :
    reverseEnds (before ++ part ++ after) before.length part.length =
      some (before ++ part.reverse ++ after) := by
  induction part using List.bidirectionalRec generalizing before after with
  | nil => rfl
  | singleton entry => rfl
  | cons_append first part last ih =>
      have count : (first :: (part ++ [last])).length = part.length + 2 := by simp
      have laid : before ++ first :: (part ++ [last]) ++ after =
          before ++ first :: (part ++ last :: after) := by simp
      have start : (before ++ first :: (part ++ last :: after))[before.length]? = some first := by
        simp
      have between : before ++ first :: (part ++ last :: after) =
          (before ++ first :: part) ++ last :: after := by simp
      have behind : before.length + part.length + 1 = (before ++ first :: part).length := by
        simp [Nat.add_assoc]
      have stop : (before ++ first :: (part ++ last :: after))[before.length + part.length + 1]? =
          some last := by
        rw [between, behind]
        simp
      have exchanged : ((before ++ first :: (part ++ last :: after)).set before.length last).set
          (before.length + part.length + 1) first =
            (before ++ [last]) ++ part ++ (first :: after) := by
        have again : before ++ last :: (part ++ last :: after) =
            (before ++ last :: part) ++ last :: after := by simp
        have length : (before ++ first :: part).length = (before ++ last :: part).length := by simp
        rw [set_middle, again, behind, length, set_middle]
        simp
      rw [count, laid, reverseEnds, start, stop]
      dsimp only [Option.bind_eq_bind, Option.bind_some]
      have more := ih (before ++ [last]) (first :: after)
      rw [List.length_append] at more
      rw [exchanged]
      refine more.trans ?_
      simp

end LaTTe.Data
