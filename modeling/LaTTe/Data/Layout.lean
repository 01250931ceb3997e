import Mathlib.Data.List.Basic

namespace LaTTe.Data

/-! Items laid out one behind the other, each at a multiple of its size. -/

def roundUp (offset align : Nat) : Nat :=
  (offset + align - 1) / align * align

theorem dvd_roundUp (offset align : Nat) : align ∣ roundUp offset align :=
  Nat.dvd_mul_left _ _

theorem le_roundUp (offset : Nat) {align : Nat} (positive : 0 < align) :
    offset ≤ roundUp offset align := by
  have split := Nat.div_add_mod' (offset + align - 1) align
  have small := Nat.mod_lt (offset + align - 1) positive
  unfold roundUp
  omega

section

universe u

variable {α : Type u} (size : α → Nat)

def placed : Nat → List α → List (α × Nat)
  | _, [] => []
  | offset, item :: rest =>
      let start := roundUp offset (size item)
      (item, start) :: placed (start + size item) rest

def placedEnd : Nat → List α → Nat
  | offset, [] => offset
  | offset, item :: rest => placedEnd (roundUp offset (size item) + size item) rest

theorem placed_fst (offset : Nat) (items : List α) :
    (placed size offset items).map Prod.fst = items := by
  induction items generalizing offset with
  | nil => rfl
  | cons item rest ih =>
      rw [placed, List.map_cons, ih]

variable {size} {items : List α} {offset : Nat}

theorem le_placedEnd (positive : ∀ item ∈ items, 0 < size item) :
    offset ≤ placedEnd size offset items := by
  induction items generalizing offset with
  | nil => exact Nat.le_refl _
  | cons item rest ih =>
      obtain ⟨first, others⟩ := List.forall_mem_cons.mp positive
      have up := le_roundUp offset first
      have more : roundUp offset (size item) + size item ≤ placedEnd size offset (item :: rest) :=
        ih others
      omega

theorem placed_bounds (positive : ∀ item ∈ items, 0 < size item) :
    ∀ entry ∈ placed size offset items, offset ≤ entry.2 ∧ size entry.1 ∣ entry.2 ∧
      entry.2 + size entry.1 ≤ placedEnd size offset items := by
  induction items generalizing offset with
  | nil =>
      intro entry mem
      cases mem
  | cons item rest ih =>
      obtain ⟨first, others⟩ := List.forall_mem_cons.mp positive
      have up := le_roundUp offset first
      intro entry mem
      rcases List.mem_cons.mp mem with rfl | later
      · exact ⟨up, dvd_roundUp _ _, le_placedEnd others⟩
      · obtain ⟨low, aligned, high⟩ := ih others entry later
        exact ⟨by omega, aligned, high⟩

theorem placed_apart (positive : ∀ item ∈ items, 0 < size item) :
    (placed size offset items).Pairwise fun first second =>
      first.2 + size first.1 ≤ second.2 := by
  induction items generalizing offset with
  | nil => exact List.Pairwise.nil
  | cons item rest ih =>
      obtain ⟨_, others⟩ := List.forall_mem_cons.mp positive
      refine List.Pairwise.cons ?_ (ih others)
      intro entry mem
      exact (placed_bounds others entry mem).1

end

end LaTTe.Data
