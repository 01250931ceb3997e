import Mathlib.Data.List.Basic

namespace LaTTe.Data

/-! An interval cut into consecutive tiles, each given by its first point; the
tile at `first` reaches up to `first + length first`. -/

def Tiles (length : Nat → Nat) : Nat → List Nat → Nat → Prop
  | first, [], stop => first = stop
  | first, tile :: rest, stop =>
      tile = first ∧ 0 < length tile ∧
        Tiles length (tile + length tile) rest stop

namespace Tiles

variable {length other : Nat → Nat}

@[simp] theorem nil_iff {first stop : Nat} :
    Tiles length first [] stop ↔ first = stop :=
  Iff.rfl

@[simp] theorem cons_iff {first tile stop : Nat} {rest : List Nat} :
    Tiles length first (tile :: rest) stop ↔
      tile = first ∧ 0 < length tile ∧
        Tiles length (tile + length tile) rest stop :=
  Iff.rfl

theorem append_iff {first stop : Nat} {left right : List Nat} :
    Tiles length first (left ++ right) stop ↔
      ∃ middle, Tiles length first left middle ∧
        Tiles length middle right stop := by
  induction left generalizing first with
  | nil => simp
  | cons tile rest ih =>
      simp only [List.cons_append, cons_iff, ih]
      constructor
      · rintro ⟨same, positive, middle, before, after⟩
        exact ⟨middle, ⟨same, positive, before⟩, after⟩
      · rintro ⟨middle, ⟨same, positive, before⟩, after⟩
        exact ⟨same, positive, middle, before, after⟩

theorem le {first stop : Nat} {tiles : List Nat}
    (tiled : Tiles length first tiles stop) : first ≤ stop := by
  induction tiles generalizing first with
  | nil => exact Nat.le_of_eq tiled
  | cons tile rest ih =>
      obtain ⟨rfl, positive, after⟩ := tiled
      have := ih after
      omega

theorem length_le {first stop : Nat} {tiles : List Nat}
    (tiled : Tiles length first tiles stop) :
    first + tiles.length ≤ stop := by
  induction tiles generalizing first with
  | nil => exact Nat.le_of_eq tiled
  | cons tile rest ih =>
      obtain ⟨rfl, positive, after⟩ := tiled
      have := ih after
      rw [List.length_cons]
      omega

theorem mem_bounds {first stop tile : Nat} {tiles : List Nat}
    (tiled : Tiles length first tiles stop) (member : tile ∈ tiles) :
    first ≤ tile ∧ 0 < length tile ∧ tile + length tile ≤ stop := by
  induction tiles generalizing first with
  | nil => simp at member
  | cons head rest ih =>
      obtain ⟨rfl, positive, after⟩ := tiled
      rcases List.mem_cons.mp member with rfl | member
      · exact ⟨Nat.le_refl _, positive, after.le⟩
      · have := ih after member
        omega

theorem covers {first stop address : Nat} {tiles : List Nat}
    (tiled : Tiles length first tiles stop) (low : first ≤ address) (high : address < stop) :
    ∃ tile ∈ tiles, tile ≤ address ∧ address < tile + length tile := by
  induction tiles generalizing first with
  | nil =>
      have : first = stop := tiled
      omega
  | cons tile rest ih =>
      obtain ⟨rfl, _, after⟩ := tiled
      rcases Nat.lt_or_ge address (tile + length tile) with inside | behind
      · exact ⟨tile, List.mem_cons_self, low, inside⟩
      · obtain ⟨other, member, found⟩ := ih after behind
        exact ⟨other, List.mem_cons_of_mem tile member, found⟩

theorem disjoint {first stop tile entry : Nat} {tiles : List Nat}
    (tiled : Tiles length first tiles stop)
    (member : tile ∈ tiles) (memberEntry : entry ∈ tiles)
    (different : tile ≠ entry) :
    tile + length tile ≤ entry ∨ entry + length entry ≤ tile := by
  induction tiles generalizing first with
  | nil => simp at member
  | cons head rest ih =>
      obtain ⟨rfl, positive, after⟩ := tiled
      rcases List.mem_cons.mp member with rfl | inRest
      · rcases List.mem_cons.mp memberEntry with rfl | entryInRest
        · exact absurd rfl different
        · exact .inl (after.mem_bounds entryInRest).1
      · rcases List.mem_cons.mp memberEntry with rfl | entryInRest
        · exact .inr (after.mem_bounds inRest).1
        · exact ih after inRest entryInRest

theorem congr {first stop : Nat} {tiles : List Nat}
    (tiled : Tiles length first tiles stop)
    (same : ∀ tile ∈ tiles, other tile = length tile) :
    Tiles other first tiles stop := by
  induction tiles generalizing first with
  | nil => exact tiled
  | cons tile rest ih =>
      obtain ⟨rfl, positive, after⟩ := tiled
      have head : other tile = length tile := same tile (by simp)
      refine ⟨rfl, by omega, ?_⟩
      rw [head]
      exact ih after (fun entry member => same entry (by simp [member]))

theorem mod_eq {unit first stop tile : Nat} {tiles : List Nat}
    (tiled : Tiles length first tiles stop) (units : ∀ tile, length tile % unit = 0)
    (member : tile ∈ tiles) : tile % unit = first % unit := by
  induction tiles generalizing first with
  | nil => simp at member
  | cons head rest ih =>
      obtain ⟨rfl, _, after⟩ := tiled
      rcases List.mem_cons.mp member with rfl | inRest
      · rfl
      · rw [ih after inRest, Nat.add_mod, units head, Nat.add_zero, Nat.mod_mod]

theorem refine {first stop : Nat} {tiles : List Nat} {cut : Nat → List Nat}
    (tiled : Tiles length first tiles stop)
    (cuts : ∀ tile ∈ tiles, Tiles other tile (cut tile) (tile + length tile)) :
    Tiles other first (tiles.flatMap cut) stop := by
  induction tiles generalizing first with
  | nil => exact tiled
  | cons tile rest ih =>
      obtain ⟨rfl, _, after⟩ := tiled
      rw [List.flatMap_cons, append_iff]
      exact ⟨_, cuts tile (by simp),
        ih after fun entry member => cuts entry (by simp [member])⟩

end Tiles

def Spaced (length : Nat → Nat) : Nat → List Nat → Nat → Prop
  | first, [], stop => first ≤ stop
  | first, tile :: rest, stop =>
      first ≤ tile ∧ 0 < length tile ∧ Spaced length (tile + length tile) rest stop

namespace Spaced

variable {length : Nat → Nat} {first stop : Nat} {tiles : List Nat}

theorem le (spaced : Spaced length first tiles stop) : first ≤ stop := by
  induction tiles generalizing first with
  | nil => exact spaced
  | cons tile rest ih =>
      obtain ⟨before, positive, after⟩ := spaced
      have := ih after
      omega

theorem weaken {first' stop' : Nat} (spaced : Spaced length first tiles stop)
    (first_le : first' ≤ first) (stop_le : stop ≤ stop') :
    Spaced length first' tiles stop' := by
  induction tiles generalizing first first' with
  | nil => exact Nat.le_trans first_le (Nat.le_trans spaced stop_le)
  | cons tile rest ih =>
      obtain ⟨before, positive, after⟩ := spaced
      exact ⟨Nat.le_trans first_le before, positive, ih after (Nat.le_refl _)⟩

theorem mem_bounds {tile : Nat} (spaced : Spaced length first tiles stop)
    (member : tile ∈ tiles) :
    first ≤ tile ∧ 0 < length tile ∧ tile + length tile ≤ stop := by
  induction tiles generalizing first with
  | nil => simp at member
  | cons head rest ih =>
      obtain ⟨before, positive, after⟩ := spaced
      rcases List.mem_cons.mp member with rfl | inRest
      · exact ⟨before, positive, after.le⟩
      · have := ih after inRest
        omega

theorem ordered (spaced : Spaced length first tiles stop) :
    tiles.Pairwise fun tile other => 0 < length tile ∧ tile + length tile ≤ other := by
  induction tiles generalizing first with
  | nil => exact .nil
  | cons tile rest ih =>
      obtain ⟨_, positive, after⟩ := spaced
      refine List.pairwise_cons.mpr ⟨?_, ih after⟩
      exact fun other member => ⟨positive, (after.mem_bounds member).1⟩

end Spaced

theorem Tiles.spaced {length : Nat → Nat} {first stop : Nat} {tiles : List Nat}
    (tiled : Tiles length first tiles stop) : Spaced length first tiles stop := by
  induction tiles generalizing first with
  | nil => exact Nat.le_of_eq tiled
  | cons tile rest ih =>
      obtain ⟨rfl, positive, after⟩ := tiled
      exact ⟨Nat.le_refl _, positive, ih after⟩

theorem Spaced.filter {length : Nat → Nat} {first stop : Nat} {tiles : List Nat}
    (spaced : Spaced length first tiles stop) (keep : Nat → Bool) :
    Spaced length first (tiles.filter keep) stop := by
  induction tiles generalizing first with
  | nil => exact spaced
  | cons tile rest ih =>
      obtain ⟨before, positive, after⟩ := spaced
      rw [List.filter_cons]
      split
      · exact ⟨before, positive, ih after⟩
      · exact (ih after).weaken (by omega) (Nat.le_refl _)

end LaTTe.Data
