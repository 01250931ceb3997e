import LaTTe.Gc.Small.Merge

namespace LaTTe.Gc

open LaTTe.Data

/-! The free memory between the survivors of a collection, as one harvest. -/

namespace Harvest

def empty : Harvest := ⟨[], [], []⟩

def gap (lo hi : Nat) : Harvest :=
  if lo < hi then chunk lo (hi - lo) else empty

def run (lo hi : Nat) : Harvest :=
  if lo < hi then block lo (hi - lo) else empty

/-- Nothing is taken from the addresses between `lo` and `hi`. -/
def Clear (harvest : Harvest) (lo hi : Nat) : Prop :=
  ∀ span ∈ harvest.spans, span.1 + span.2 ≤ lo ∨ hi ≤ span.1

def Within (harvest : Harvest) (lo hi : Nat) : Prop :=
  ∀ span ∈ harvest.spans, lo ≤ span.1 ∧ span.1 + span.2 ≤ hi

@[simp] theorem append_empty (harvest : Harvest) : harvest ++ empty = harvest := by
  show Harvest.mk _ _ _ = harvest
  simp [empty]

@[simp] theorem empty_append (harvest : Harvest) : empty ++ harvest = harvest := by
  show Harvest.mk _ _ _ = harvest
  simp [empty]

theorem mem_spans_append {left right : Harvest} {span : Nat × Nat} :
    span ∈ (left ++ right).spans ↔ span ∈ left.spans ∨ span ∈ right.spans := by
  simp only [spans, append_chunks, append_blocks, append_unmarked, List.map_append,
    List.mem_append]
  tauto

section

variable {left right harvest : Harvest} {lo hi lo' hi' : Nat}

theorem Clear.append (clear : left.Clear lo hi) (clear' : right.Clear lo hi) :
    (left ++ right).Clear lo hi := by
  intro span member
  rcases mem_spans_append.mp member with inLeft | inRight
  · exact clear span inLeft
  · exact clear' span inRight

theorem Clear.mono (clear : harvest.Clear lo hi) (lo_le : lo ≤ lo') (hi_le : hi' ≤ hi) :
    harvest.Clear lo' hi' := by
  intro span member
  have := clear span member
  omega

theorem Within.append (within : left.Within lo hi) (within' : right.Within lo hi) :
    (left ++ right).Within lo hi := by
  intro span member
  rcases mem_spans_append.mp member with inLeft | inRight
  · exact within span inLeft
  · exact within' span inRight

theorem Within.mono (within : harvest.Within lo hi) (lo_le : lo' ≤ lo) (hi_le : hi ≤ hi') :
    harvest.Within lo' hi' := by
  intro span member
  have := within span member
  omega

theorem Within.clear_above (within : harvest.Within lo hi) (above : hi ≤ lo') :
    harvest.Clear lo' hi' := by
  intro span member
  have := within span member
  omega

theorem Within.clear_below (within : harvest.Within lo hi) (below : hi' ≤ lo) :
    harvest.Clear lo' hi' := by
  intro span member
  have := within span member
  omega

theorem within_empty : empty.Within lo hi := by
  intro span member
  simp [empty, spans] at member

theorem within_gap : (gap lo hi).Within lo hi := by
  intro span member
  unfold gap at member
  split at member
  · obtain rfl : span = (lo, hi - lo) := by simpa [chunk, spans] using member
    dsimp only
    omega
  · simp [empty, spans] at member

theorem within_run : (run lo hi).Within lo hi := by
  intro span member
  unfold run at member
  split at member
  · obtain rfl : span = (lo, hi - lo) := by simpa [block, spans] using member
    dsimp only
    omega
  · simp [empty, spans] at member

theorem within_head (address : Nat) : (head address).Within address (address + 4) := by
  intro span member
  obtain rfl : span = (address, 4) := by simpa [head, spans] using member
  exact ⟨Nat.le_refl _, Nat.le_refl _⟩

end

def between (size : Nat → Nat) : Nat → List Nat → Harvest
  | _, [] => empty
  | lo, first :: rest => gap lo first ++ head first ++ between size (first + size first) rest

def tailStart (size : Nat → Nat) : Nat → List Nat → Nat
  | lo, [] => lo
  | _, first :: rest => tailStart size (first + size first) rest

def ofBlock (size : Nat → Nat) (start : Nat) (live : List Nat) : Harvest :=
  between size (firstHeader start) live ++
    gap (tailStart size (firstHeader start) live) (blockBound start)

/-- What is left of a region: blocks without survivors are free, from `start` on. -/
def ofRegion (size : Nat → Nat) (live : Nat → List Nat) :
    Nat → List Nat → Nat → Harvest
  | start, [], stop => run start stop
  | start, current :: rest, stop =>
      if live current = [] then
        ofRegion size live start rest stop
      else
        ofBlock size current (live current) ++ run start current ++
          ofRegion size live (current + gcBlockSize) rest stop

section

variable {size : Nat → Nat} {lo hi : Nat} {heads : List Nat}

theorem tailStart_bounds (spaced : Spaced size lo heads hi) :
    lo ≤ tailStart size lo heads ∧ tailStart size lo heads ≤ hi := by
  induction heads generalizing lo with
  | nil => exact ⟨Nat.le_refl _, spaced⟩
  | cons first rest ih =>
      obtain ⟨before, positive, after⟩ := spaced
      have := ih after
      unfold tailStart
      omega

theorem tailStart_mod (aligned : ∀ head ∈ heads, (head + size head) % 8 = 4)
    (lo_mod : lo % 8 = 4) : tailStart size lo heads % 8 = 4 := by
  induction heads generalizing lo with
  | nil => exact lo_mod
  | cons first rest ih =>
      exact ih (fun head member => aligned head (by simp [member]))
        (aligned first (by simp))

theorem within_between (spaced : Spaced size lo heads hi)
    (large : ∀ head ∈ heads, 8 ≤ size head) :
    (between size lo heads).Within lo (tailStart size lo heads) := by
  induction heads generalizing lo with
  | nil => exact within_empty
  | cons first rest ih =>
      obtain ⟨before, positive, after⟩ := spaced
      have bounds := tailStart_bounds after
      have := large first (by simp)
      have rest := ih after (fun head member => large head (by simp [member]))
      unfold between tailStart
      refine ((within_gap.mono (Nat.le_refl _) ?_).append
        ((within_head first).mono before ?_)).append (rest.mono ?_ (Nat.le_refl _))
      · omega
      · omega
      · omega

theorem within_ofBlock {start : Nat} (spaced : Spaced size (firstHeader start) heads
    (blockBound start)) (large : ∀ head ∈ heads, 8 ≤ size head) :
    (ofBlock size start heads).Within start (start + gcBlockSize) := by
  have bounds := tailStart_bounds spaced
  unfold ofBlock
  refine ((within_between spaced large).mono ?_ ?_).append (within_gap.mono ?_ ?_)
  all_goals
    unfold firstHeader blockBound gcBlockSize memAlign gcHead at *
    omega

theorem within_ofRegion {live : Nat → List Nat} {start current stop : Nat}
    {blocks : List Nat} (tiled : Tiles (fun _ => gcBlockSize) current blocks stop)
    (start_le : start ≤ current)
    (spaced : ∀ block ∈ blocks, live block ≠ [] →
      Spaced size (firstHeader block) (live block) (blockBound block))
    (large : ∀ block ∈ blocks, ∀ head ∈ live block, 8 ≤ size head) :
    (ofRegion size live start blocks stop).Within start stop := by
  induction blocks generalizing start current with
  | nil => exact within_run
  | cons block rest ih =>
      obtain ⟨rfl, _, after⟩ := tiled
      have spacedRest := fun other member => spaced other (List.mem_cons_of_mem _ member)
      have largeRest := fun other member => large other (List.mem_cons_of_mem _ member)
      have stop_le := after.le
      unfold ofRegion
      split
      · exact ih after (by omega) spacedRest largeRest
      · rename_i survivors
        have here := within_ofBlock (spaced block (by simp) survivors)
          (large block (by simp))
        refine ((here.mono start_le stop_le).append
          (within_run.mono (Nat.le_refl _) ?_)).append
            ((ih after (Nat.le_refl _) spacedRest largeRest).mono ?_ (Nat.le_refl _))
        · omega
        · omega

end

end Harvest

section

variable {memory : Memory} {harvest : Harvest} {sweeper : Sweeper}

theorem Built.freeChunkPart (built : Built memory harvest sweeper) {lo hi : Nat}
    (lo_mod : lo % 8 = 4) (hi_mod : hi % 8 = 4) (short : hi < lo + gcBlockSize)
    (clear : harvest.Clear lo hi) :
    Built memory (harvest ++ .gap lo hi) (freeChunkPart sweeper (lo, hi)) := by
  unfold Harvest.gap Gc.freeChunkPart
  split
  · rename_i nonempty
    apply built.insertFreechunk
    · omega
    · omega
    · omega
    · intro span member
      have := clear span member
      unfold SpansApart
      dsimp only
      omega
  · simpa using built

theorem Built.freeBlockPart (built : Built memory harvest sweeper) {lo hi : Nat}
    (lo_mod : lo % gcBlockSize = 0) (hi_mod : hi % gcBlockSize = 0) (positive : 0 < lo)
    (clear : harvest.Clear lo hi) :
    Built memory (harvest ++ .run lo hi) (freeBlockPart sweeper (lo, hi)) := by
  unfold Harvest.run Gc.freeBlockPart
  split
  · rename_i nonempty
    apply built.insertFreeblock
    · unfold gcBlockSize at *
      omega
    · exact positive
    · intro span member
      have := clear span member
      unfold SpansApart
      dsimp only
      omega
  · simpa using built

end

end LaTTe.Gc
