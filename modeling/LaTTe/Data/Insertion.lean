import Mathlib.Data.List.Perm.Basic
import Mathlib.Data.List.TakeWhile
import Mathlib.Order.Basic
import Mathlib.Order.Lattice

namespace LaTTe.Data

universe u v

variable {α : Type u}

/-! Insertion into an ordered list that is searched from its end. -/

def insertBehind (behind : α → Bool) (items : List α) (item : α) : List α :=
  (items.reverse.dropWhile behind).reverse ++
    item :: (items.reverse.takeWhile behind).reverse

variable {behind : α → Bool} {items : List α} {item other : α}

theorem insertBehind_split (behind : α → Bool) (items : List α) :
    items = (items.reverse.dropWhile behind).reverse ++
      (items.reverse.takeWhile behind).reverse := by
  rw [← List.reverse_append, List.takeWhile_append_dropWhile, List.reverse_reverse]

theorem mem_insertBehind :
    other ∈ insertBehind behind items item ↔ other = item ∨ other ∈ items := by
  have whole := congrArg (other ∈ ·) (insertBehind_split behind items)
  simp only [List.mem_append] at whole
  rw [insertBehind, List.mem_append, List.mem_cons, whole, or_left_comm]

theorem exists_last_of_mem (member : other ∈ (items.reverse.dropWhile behind).reverse) :
    ∃ rest last, (items.reverse.dropWhile behind).reverse = rest ++ [last] ∧
      behind last = false := by
  obtain ⟨last, rest, reversed⟩ :=
    List.exists_cons_of_ne_nil (List.ne_nil_of_mem (List.mem_reverse.mp member))
  refine ⟨rest.reverse, last, by rw [reversed, List.reverse_cons], ?_⟩
  have head := List.head?_dropWhile_not behind items.reverse
  rw [reversed] at head
  simpa using head

theorem insertBehind_pairwise {r : α → α → Prop} (sorted : items.Pairwise r)
    (above : ∀ node ∈ items, behind node = true → r item node)
    (below : ∀ node ∈ items, behind node = false → r node item)
    (trans : ∀ first ∈ items, ∀ node ∈ items, r first node → r node item → r first item) :
    (insertBehind behind items item).Pairwise r := by
  have split := insertBehind_split behind items
  have inItems : ∀ node, node ∈ (items.reverse.dropWhile behind).reverse ∨
      node ∈ (items.reverse.takeWhile behind).reverse → node ∈ items := by
    intro node member
    rw [split]
    exact List.mem_append.mpr member
  rw [split] at sorted
  obtain ⟨lowSorted, highSorted, between⟩ := List.pairwise_append.mp sorted
  refine List.pairwise_append.mpr ⟨lowSorted, List.pairwise_cons.mpr ⟨?_, highSorted⟩, ?_⟩
  · intro node member
    exact above node (inItems node (.inr member))
      (List.mem_takeWhile_imp (List.mem_reverse.mp member))
  · intro node member entry inRest
    rcases List.mem_cons.mp inRest with rfl | inHigh
    · obtain ⟨rest, last, low_eq, stops⟩ := exists_last_of_mem member
      have lastIn : last ∈ items := inItems last (.inl (by simp [low_eq]))
      have lastBelow := below last lastIn stops
      rw [low_eq] at member lowSorted
      rcases List.mem_append.mp member with earlier | same
      · have ordered := (List.pairwise_append.mp lowSorted).2.2 node earlier last (by simp)
        exact trans node (inItems node (.inl (by rw [low_eq]; simp [earlier]))) last lastIn
          ordered lastBelow
      · rwa [List.mem_singleton.mp same]
    · exact between node member entry inHigh

/-! Insertion into a list that is sorted by a key, behind the items of the same key. -/

section

variable {κ : Type v} [LinearOrder κ] (key : α → κ)

def insertByKey (a : α) : List α → List α
  | [] => [a]
  | b :: rest => if key a < key b then a :: b :: rest else b :: insertByKey a rest

theorem insertByKey_perm (a : α) (items : List α) :
    (insertByKey key a items).Perm (a :: items) := by
  induction items with
  | nil => exact .refl _
  | cons b rest ih =>
      rw [insertByKey]
      split
      · exact .refl _
      · exact (ih.cons b).trans (.swap a b rest)

theorem insertByKey_eq (a : α) (items : List α) :
    insertByKey key a items = items.takeWhile (fun b => !decide (key a < key b)) ++
      a :: items.dropWhile fun b => !decide (key a < key b) := by
  induction items with
  | nil => rfl
  | cons b rest ih =>
      rw [insertByKey]
      by_cases less : key a < key b
      · rw [if_pos less, List.takeWhile_cons_of_neg (by simp [less]),
          List.dropWhile_cons_of_neg (by simp [less]), List.nil_append]
      · rw [if_neg less, List.takeWhile_cons_of_pos (by simp [less]),
          List.dropWhile_cons_of_pos (by simp [less]), ih, List.cons_append]

theorem insertByKey_sorted (a : α) {items : List α}
    (sorted : items.Pairwise fun b c => key b ≤ key c) :
    (insertByKey key a items).Pairwise fun b c => key b ≤ key c := by
  induction items with
  | nil => exact List.pairwise_singleton _ _
  | cons b rest ih =>
      have tail := List.pairwise_cons.mp sorted
      rw [insertByKey]
      split
      · rename_i less
        refine List.pairwise_cons.mpr ⟨fun c member => ?_, sorted⟩
        cases List.mem_cons.mp member with
        | inl first => exact first ▸ le_of_lt less
        | inr later => exact le_trans (le_of_lt less) (tail.1 c later)
      · rename_i notLess
        refine List.pairwise_cons.mpr ⟨fun c member => ?_, ih tail.2⟩
        cases List.mem_cons.mp ((insertByKey_perm key a rest).mem_iff.mp member) with
        | inl new => exact new ▸ not_lt.mp notLess
        | inr later => exact tail.1 c later

end

end LaTTe.Data
