import LaTTe.Data.OpenAddressing
import Mathlib.Tactic.Ring

namespace LaTTe.Data

universe u

/-! Tables whose size is a power of two, probed by squares.  There may be equal items. -/

def Slot.item {α : Type u} : Slot α → Option α
  | used a => some a
  | _ => none

namespace OpenAddressing

variable {α : Type u} {slots other : Nat → Slot α} {size i : Nat} {a : α}

def contents (slots : Nat → Slot α) (size : Nat) : List α :=
  (List.range size).filterMap fun i => (slots i).item

theorem item_eq_some {slot : Slot α} : slot.item = some a ↔ slot = .used a := by
  cases slot <;> simp [Slot.item]

@[simp] theorem contents_zero : contents slots 0 = [] :=
  rfl

theorem contents_succ :
    contents slots (size + 1) = contents slots size ++ (slots size).item.toList := by
  rw [contents, List.range_succ, List.filterMap_append]
  cases slot : (slots size).item <;> simp [contents, slot]

theorem mem_contents : a ∈ contents slots size ↔ ∃ i < size, slots i = .used a := by
  simp only [contents, List.mem_filterMap, List.mem_range, item_eq_some]

theorem contents_congr (same : ∀ i < size, slots i = other i) :
    contents slots size = contents other size := by
  induction size with
  | zero => rfl
  | succ size ih =>
      rw [contents_succ, contents_succ, ih fun i below => same i (Nat.lt_succ_of_lt below),
        same size (Nat.lt_succ_self size)]

theorem contents_update_of_le (outside : size ≤ i) (slot : Slot α) :
    contents (Function.update slots i slot) size = contents slots size := by
  refine contents_congr fun j below => ?_
  exact Function.update_of_ne (Nat.ne_of_lt (Nat.lt_of_lt_of_le below outside)) ..

theorem contents_insert (below : i < size) (free : (slots i).isUsed = false) (a : α) :
    (contents (Function.update slots i (.used a)) size).Perm (a :: contents slots size) := by
  induction size with
  | zero => exact absurd below (Nat.not_lt_zero i)
  | succ size ih =>
      rw [contents_succ, contents_succ]
      cases Nat.lt_succ_iff_lt_or_eq.mp below with
      | inl before =>
          rw [Function.update_of_ne (Nat.ne_of_gt before)]
          exact (ih before).append_right _
      | inr last =>
          subst last
          have none : (slots i).item = none := by
            cases slot : slots i with
            | used b =>
                rw [slot] at free
                contradiction
            | _ => rfl
          rw [contents_update_of_le (Nat.le_refl i), Function.update_self, none]
          exact (List.perm_append_singleton a _).trans (by simp)

theorem contents_delete (below : i < size) (used : slots i = .used a) :
    (a :: contents (Function.update slots i .deleted) size).Perm (contents slots size) := by
  have back : (contents (Function.update (Function.update slots i .deleted) i (.used a)) size).Perm
      (a :: contents (Function.update slots i .deleted) size) :=
    contents_insert below (by rw [Function.update_self]; rfl) a
  rw [Function.update_idem, ← used, Function.update_eq_self] at back
  exact back.symm

theorem length_contents (slots : Nat → Slot α) (size : Nat) :
    (contents slots size).length = (usedBelow slots size).card := by
  rw [card_usedBelow]
  induction size with
  | zero => rfl
  | succ size ih =>
      rw [contents_succ, List.length_append, ih, List.range_succ, List.countP_append,
        List.countP_singleton]
      cases slots size <;> rfl

theorem length_contents_mono (slots : Nat → Slot α) {small large : Nat} (le : small ≤ large) :
    (contents slots small).length ≤ (contents slots large).length := by
  induction le with
  | refl => exact Nat.le_refl _
  | step _ ih =>
      rw [contents_succ, List.length_append]
      exact ih.trans (Nat.le_add_right _ _)

/-- The squares of the odd numbers up to a quarter of the size are different. -/
theorem odd_squares_injOn (bits hash : Nat) :
    Set.InjOn (fun j => (hash + (2 * j + 1) * (2 * j + 1)) % 2 ^ (bits + 3))
      (Set.Iio (2 ^ bits)) := by
  have less : ∀ a b, a < b → b < 2 ^ bits →
      ¬ (hash + (2 * a + 1) * (2 * a + 1)) ≡ (hash + (2 * b + 1) * (2 * b + 1))
        [MOD 2 ^ (bits + 3)] := by
    intro a b lower high same
    obtain ⟨d, rfl⟩ := Nat.exists_eq_add_of_lt lower
    have squares := Nat.ModEq.add_left_cancel' hash same
    have grown : (2 * a + 1) * (2 * a + 1) ≤ (2 * (a + d + 1) + 1) * (2 * (a + d + 1) + 1) :=
      Nat.mul_le_mul (by omega) (by omega)
    have divides := (Nat.modEq_iff_dvd' grown).mp squares
    have split : (2 * (a + d + 1) + 1) * (2 * (a + d + 1) + 1) - (2 * a + 1) * (2 * a + 1) =
        4 * ((d + 1) * (2 * a + d + 2)) := by
      refine Nat.sub_eq_of_eq_add ?_
      ring
    have size : 2 ^ (bits + 3) = 4 * 2 ^ (bits + 1) := by ring
    have double : 2 ^ (bits + 1) = 2 * 2 ^ bits := by ring
    rw [split, size, Nat.mul_dvd_mul_iff_left (by decide)] at divides
    -- of the difference and the sum, one is odd
    rcases Nat.even_or_odd (d + 1) with even | odd
    · have coprime : Nat.Coprime (2 ^ (bits + 1)) (2 * a + d + 2) := by
        refine Nat.Coprime.pow_left _ (Nat.coprime_two_left.mpr ?_)
        obtain ⟨half, even⟩ := even
        exact ⟨a + half, by omega⟩
      have small := Nat.le_of_dvd (Nat.succ_pos d) (coprime.dvd_of_dvd_mul_right divides)
      omega
    · have coprime : Nat.Coprime (2 ^ (bits + 1)) (d + 1) :=
        Nat.Coprime.pow_left _ (Nat.coprime_two_left.mpr odd)
      have small := Nat.le_of_dvd (by omega) (coprime.dvd_of_dvd_mul_left divides)
      omega
  intro a low b low' equal
  rcases Nat.lt_trichotomy a b with lower | same | higher
  · exact absurd equal (less a b lower low')
  · exact same
  · exact absurd equal.symm (less b a higher low)

theorem exists_free {bits : Nat} (few : (contents slots (2 ^ (bits + 3))).length < 2 ^ bits)
    (hash : Nat) : ∃ n < 2 ^ (bits + 3), (slots ((hash + n * n) % 2 ^ (bits + 3))).isUsed = false := by
  rw [length_contents] at few
  obtain ⟨j, below, outside⟩ := exists_notMem_of_injOn (odd_squares_injOn bits hash) few
  have inside : (hash + (2 * j + 1) * (2 * j + 1)) % 2 ^ (bits + 3) < 2 ^ (bits + 3) :=
    Nat.mod_lt _ (Nat.two_pow_pos _)
  have size : 2 ^ (bits + 3) = 8 * 2 ^ bits := by ring
  refine ⟨2 * j + 1, by omega, eq_false_of_ne_true fun used => outside ?_⟩
  exact Finset.mem_filter.mpr ⟨Finset.mem_range.mpr inside, used⟩

end OpenAddressing

end LaTTe.Data
