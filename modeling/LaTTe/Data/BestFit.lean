import Mathlib.Order.Monotone.Basic
import Mathlib.Data.List.Pairwise
import Mathlib.Order.Lattice

namespace LaTTe.Data

/-! The smallest item that is large enough, among items in sorted bins. -/

variable {α ι S : Type} [LinearOrder ι] [LinearOrder S]

structure BestFit (held : α → Prop) (size : α → S) (wanted : S) (item : α) : Prop where
  isHeld : held item
  enough : wanted ≤ size item
  least : ∀ other, held other → wanted ≤ size other → size item ≤ size other

structure Binned (bins : ι → Prop) (bin : S → ι) (size : α → S) (chain : ι → List α) :
    Prop where
  monotone : Monotone bin
  ascending : ∀ c, bins c → (chain c).Pairwise fun item other => size item ≤ size other
  binned : ∀ c, bins c → ∀ item ∈ chain c, bin (size item) = c

namespace Binned

variable {bins : ι → Prop} {bin : S → ι} {size : α → S} {chain : ι → List α}
  {held : α → Prop} {wanted : S} {item : α}

theorem bin_le (binned : Binned bins bin size chain) (enough : wanted ≤ size item) :
    bin wanted ≤ bin (size item) :=
  binned.monotone enough

theorem lt_of_bin (binned : Binned bins bin size chain) {other : S}
    (below : bin other < bin (size item)) : other < size item :=
  binned.monotone.reflect_lt below

theorem bestFit_here (binned : Binned bins bin size chain)
    (held_iff : ∀ item, held item ↔ ∃ c, bins c ∧ item ∈ chain c) {left right : List α}
    (inBins : bins (bin wanted)) (cut : chain (bin wanted) = left ++ item :: right)
    (smaller : ∀ other ∈ left, size other < wanted) (enough : wanted ≤ size item) :
    BestFit held size wanted item where
  isHeld := (held_iff item).mpr ⟨_, inBins, by simp [cut]⟩
  enough := enough
  least other isHeld fits := by
    obtain ⟨c, inBins', member⟩ := (held_iff other).mp isHeld
    have here : bin (size item) = bin wanted := binned.binned _ inBins item (by simp [cut])
    have there := binned.binned c inBins' other member
    rcases (binned.bin_le fits).lt_or_eq with above | same
    · exact (binned.lt_of_bin (here ▸ above)).le
    · have ascending := binned.ascending _ inBins
      rw [← there, ← same, cut] at member
      rw [cut] at ascending
      rcases List.mem_append.mp member with before | behind
      · exact absurd fits (smaller other before).not_ge
      · rcases List.mem_cons.mp behind with rfl | behind
        · exact le_rfl
        · exact (List.pairwise_cons.mp (List.pairwise_append.mp ascending).2.1).1 other behind

theorem bestFit_above (binned : Binned bins bin size chain)
    (held_iff : ∀ item, held item ↔ ∃ c, bins c ∧ item ∈ chain c) {c : ι} {rest : List α}
    (inBins : bins c) (above : bin wanted < c) (cut : chain c = item :: rest)
    (passed : ∀ other, held other → wanted ≤ size other → c ≤ bin (size other)) :
    BestFit held size wanted item where
  isHeld := (held_iff item).mpr ⟨c, inBins, by simp [cut]⟩
  enough := by
    have here : bin (size item) = c := binned.binned c inBins item (by simp [cut])
    exact (binned.lt_of_bin (here.symm ▸ above)).le
  least other isHeld fits := by
    have here : bin (size item) = c := binned.binned c inBins item (by simp [cut])
    obtain ⟨c', inBins', member⟩ := (held_iff other).mp isHeld
    have there := binned.binned c' inBins' other member
    rcases (passed other isHeld fits).lt_or_eq with larger | same
    · exact (binned.lt_of_bin (here.symm ▸ larger)).le
    · have ascending := binned.ascending c inBins
      rw [← there, ← same, cut] at member
      rw [cut] at ascending
      rcases List.mem_cons.mp member with rfl | behind
      · exact le_rfl
      · exact (List.pairwise_cons.mp ascending).1 other behind

end Binned

end LaTTe.Data
