import LaTTe.Data.Tiling
import LaTTe.Gc.Manual.FreeLists

namespace LaTTe.Gc.Manual

open LaTTe.Data

/-! Boundary tags.  Which lumps are in use is known to the callers only; the
tags have to agree with the list `allocated` of pointers they hold. -/

structure Tagged (memory : Memory) (allocated : List Nat) (entry : Bool) (p : Nat) :
    Prop where
  positive : 0 < size memory p
  rounded : size memory p % 16 = 0
  flag : prevInUse memory (nextLump memory p) = decide (p ∈ allocated)
  free : p ∉ allocated →
    entry = true ∧ memory (footer p (size memory p)) = size memory p

/-- Consecutive lumps from `first` to `stop` with their tags. -/
def Segment (memory : Memory) (allocated : List Nat) :
    Bool → Nat → List Nat → Bool → Nat → Prop
  | entry, first, [], exit, stop => exit = entry ∧ stop = first
  | entry, first, p :: rest, exit, stop =>
      p = first ∧ Tagged memory allocated entry p ∧
        Segment memory allocated (decide (p ∈ allocated)) (nextLump memory p) rest
          exit stop

namespace Segment

variable {memory other : Memory} {allocated allocated' : List Nat}
  {entry exit : Bool} {first stop : Nat} {lumps left right : List Nat}

@[simp] theorem nil_iff :
    Segment memory allocated entry first [] exit stop ↔
      exit = entry ∧ stop = first :=
  Iff.rfl

@[simp] theorem cons_iff {p : Nat} {rest : List Nat} :
    Segment memory allocated entry first (p :: rest) exit stop ↔
      p = first ∧ Tagged memory allocated entry p ∧
        Segment memory allocated (decide (p ∈ allocated)) (nextLump memory p) rest
          exit stop :=
  Iff.rfl

theorem append_iff :
    Segment memory allocated entry first (left ++ right) exit stop ↔
      ∃ flag middle, Segment memory allocated entry first left flag middle ∧
        Segment memory allocated flag middle right exit stop := by
  induction left generalizing entry first with
  | nil => simp
  | cons p rest ih =>
      simp only [List.cons_append, cons_iff, ih]
      constructor
      · rintro ⟨same, tagged, flag, middle, before, after⟩
        exact ⟨flag, middle, ⟨same, tagged, before⟩, after⟩
      · rintro ⟨flag, middle, ⟨same, tagged, before⟩, after⟩
        exact ⟨same, tagged, flag, middle, before, after⟩

section

variable (segment : Segment memory allocated entry first lumps exit stop)

include segment

theorem tiles :
    Tiles (size memory) first lumps stop := by
  induction lumps generalizing entry first with
  | nil => exact segment.2.symm
  | cons p rest ih =>
      obtain ⟨rfl, tagged, behind⟩ := segment
      exact ⟨rfl, tagged.positive, ih behind⟩

theorem aligned (alignedFirst : first % 16 = 0) :
    stop % 16 = 0 ∧ ∀ p ∈ lumps, p % 16 = 0 := by
  induction lumps generalizing entry first with
  | nil =>
      obtain ⟨_, rfl⟩ := segment
      exact ⟨alignedFirst, by simp⟩
  | cons p rest ih =>
      obtain ⟨rfl, tagged, behind⟩ := segment
      have rounded := tagged.rounded
      obtain ⟨alignedStop, others⟩ := ih behind (by unfold nextLump; omega)
      refine ⟨alignedStop, ?_⟩
      intro q member
      rcases List.mem_cons.mp member with rfl | inRest
      · exact alignedFirst
      · exact others q inRest

theorem tagged_of_mem {p : Nat} (member : p ∈ lumps) : ∃ flag, Tagged memory allocated flag p := by
  induction lumps generalizing entry first with
  | nil => simp at member
  | cons q rest ih =>
      obtain ⟨rfl, tagged, behind⟩ := segment
      rcases List.mem_cons.mp member with rfl | inRest
      · exact ⟨entry, tagged⟩
      · exact ih behind inRest

theorem congr (sameSize : ∀ p ∈ lumps, size other p = size memory p)
    (sameFlag : ∀ p ∈ lumps, prevInUse other (nextLump memory p) =
      prevInUse memory (nextLump memory p))
    (sameFooter : ∀ p ∈ lumps, p ∉ allocated →
      other (footer p (size memory p)) = memory (footer p (size memory p)))
    (sameUse : ∀ p ∈ lumps, p ∈ allocated' ↔ p ∈ allocated) :
    Segment other allocated' entry first lumps exit stop := by
  induction lumps generalizing entry first with
  | nil => exact segment
  | cons p rest ih =>
      obtain ⟨rfl, tagged, behind⟩ := segment
      have size_eq := sameSize p (by simp)
      have next_eq : nextLump other p = nextLump memory p := by
        rw [nextLump, size_eq, nextLump]
      have use_eq : decide (p ∈ allocated') = decide (p ∈ allocated) := by
        simp [sameUse p]
      refine ⟨rfl, ⟨?_, ?_, ?_, ?_⟩, ?_⟩
      · rw [size_eq]
        exact tagged.positive
      · rw [size_eq]
        exact tagged.rounded
      · rw [next_eq, sameFlag p (by simp), use_eq]
        exact tagged.flag
      · intro isFree
        have isFree : p ∉ allocated := by rwa [sameUse p (by simp)] at isFree
        rw [size_eq, sameFooter p (by simp) isFree]
        exact tagged.free isFree
      · rw [use_eq, next_eq]
        exact ih behind (fun q hq => sameSize q (by simp [hq]))
          (fun q hq => sameFlag q (by simp [hq]))
          (fun q hq => sameFooter q (by simp [hq]))
          (fun q hq => sameUse q (by simp [hq]))

theorem exit_eq (known : prevInUse memory first = entry) : prevInUse memory stop = exit := by
  induction lumps generalizing entry first with
  | nil =>
      obtain ⟨rfl, rfl⟩ := segment
      exact known
  | cons p rest ih =>
      obtain ⟨rfl, tagged, behind⟩ := segment
      exact ih behind tagged.flag

theorem enter (changed : Bool)
    (allowed : changed = entry ∨ changed = true ∨ ∀ p ∈ lumps.head?, p ∈ allocated) :
    ∃ final, Segment memory allocated changed first lumps final stop := by
  cases lumps with
  | nil => exact ⟨changed, rfl, segment.2⟩
  | cons p rest =>
      obtain ⟨rfl, tagged, behind⟩ := segment
      refine ⟨exit, rfl, ⟨tagged.positive, tagged.rounded, tagged.flag, ?_⟩, behind⟩
      intro isFree
      refine ⟨?_, (tagged.free isFree).2⟩
      rcases allowed with rfl | rfl | used
      · exact (tagged.free isFree).1
      · rfl
      · exact absurd (used p (by simp)) isFree

end

end Segment

structure Region where
  start : Nat
  stop : Nat
  deriving DecidableEq, Repr

namespace Region

def first (region : Region) : Nat :=
  region.start + 2 * memAlign

def last (region : Region) : Nat :=
  region.stop - 4 * memAlign

end Region

structure RegionOk (memory : Memory) (allocated : List Nat) (region : Region)
    (lumps : List Nat) : Prop where
  aligned : region.start % 16 = 0
  room : region.start + 48 ≤ region.stop
  small : region.stop ≤ wordSize
  firstInUse : prevInUse memory region.first = true
  tagged : ∃ exit, Segment memory allocated true region.first lumps exit region.last
  dummy : size memory region.last = memAlign
  ending : prevInUse memory (nextLump memory region.last) = true

/-- Headers and footers outside of `[first, stop)` and its header are kept. -/
def TagsOutside (memory other : Memory) (first stop : Nat) : Prop :=
  ∀ address, address % 16 = 8 ∨ address % 16 = 12 →
    address + 4 < first ∨ stop ≤ address → other address = memory address

namespace TagsOutside

variable {memory other third : Memory} {first stop address value : Nat}

theorem of_sameTags (same : SameTags memory other) (first stop : Nat) :
    TagsOutside memory other first stop :=
  fun address isTag _ => same address isTag

theorem trans (before : TagsOutside memory other first stop)
    (after : TagsOutside other third first stop) :
    TagsOutside memory third first stop := by
  intro address isTag outside
  rw [after address isTag outside, before address isTag outside]

theorem store (memory : Memory) (value : Nat)
    (low : first ≤ address + 4) (high : address < stop) :
    TagsOutside memory (memory.store address value) first stop := by
  intro other _ outside
  exact Memory.store_other memory value (by omega)

end TagsOutside

section

variable {memory other : Memory} {allocated allocated' : List Nat} {region : Region}
  {lumps left mid mid' right : List Nat}

section

variable (ok : RegionOk memory allocated region lumps)

include ok

theorem RegionOk.first_aligned :
    region.first % 16 = 0 := by
  have := ok.aligned
  unfold Region.first memAlign
  omega

theorem RegionOk.last_aligned :
    region.last % 16 = 0 := by
  obtain ⟨exit, tagged⟩ := ok.tagged
  exact (tagged.aligned ok.first_aligned).1

theorem RegionOk.bounds {p : Nat} (member : p ∈ lumps) :
    p % 16 = 0 ∧ region.start + 16 ≤ p ∧ 16 ≤ size memory p ∧
      size memory p % 16 = 0 ∧ p + size memory p + 32 ≤ region.stop := by
  obtain ⟨exit, tagged⟩ := ok.tagged
  obtain ⟨entry, tags⟩ := tagged.tagged_of_mem member
  have bounds := tagged.tiles.mem_bounds member
  have aligned := (tagged.aligned ok.first_aligned).2 p member
  have rounded := tags.rounded
  have room := ok.room
  unfold Region.first Region.last memAlign at bounds
  omega

theorem RegionOk.isLump {p : Nat} (member : p ∈ lumps) : IsLump p := by
  obtain ⟨aligned, low, _, _, high⟩ := ok.bounds member
  have small := ok.small
  exact ⟨aligned, by omega, by omega⟩

theorem RegionOk.disjoint {p q : Nat} (hp : p ∈ lumps) (hq : q ∈ lumps) (different : p ≠ q) :
    p + size memory p ≤ q ∨ q + size memory q ≤ p := by
  obtain ⟨exit, tagged⟩ := ok.tagged
  exact tagged.tiles.disjoint hp hq different

theorem RegionOk.congr (sameTags : ∀ address, address % 16 = 8 ∨ address % 16 = 12 →
      region.start ≤ address → address < region.stop →
      other address = memory address)
    (sameEnding : prev other region.last = prev memory region.last)
    (sameUse : ∀ p ∈ lumps, p ∈ allocated' ↔ p ∈ allocated) :
    RegionOk other allocated' region lumps := by
  have alignedFirst := ok.first_aligned
  have alignedLast := ok.last_aligned
  have room := ok.room
  have sameHeader : ∀ p, p % 16 = 0 → region.start + 16 ≤ p → p < region.stop →
      other (header p) = memory (header p) := by
    intro p aligned low high
    apply sameTags <;> unfold header gcHead <;> omega
  have lastHeader : other (header region.last) = memory (header region.last) := by
    apply sameHeader _ alignedLast <;> unfold Region.last memAlign at * <;> omega
  refine ⟨ok.aligned, ok.room, ok.small, ?_, ?_, ?_, ?_⟩
  · rw [prevInUse_congr (sameHeader _ alignedFirst _ _), ok.firstInUse]
    · unfold Region.first memAlign
      omega
    · unfold Region.first memAlign
      omega
  · obtain ⟨exit, tagged⟩ := ok.tagged
    refine ⟨exit, tagged.congr ?_ ?_ ?_ sameUse⟩
    · intro p member
      have := ok.bounds member
      exact size_congr (sameHeader p (by omega) (by omega) (by omega))
    · intro p member
      have := ok.bounds member
      unfold nextLump
      exact prevInUse_congr (sameHeader _ (by omega) (by omega) (by omega))
    · intro p member _
      have := ok.bounds member
      apply sameTags <;> unfold footer gcHead <;> omega
  · rw [size_congr lastHeader, ok.dummy]
  · have ending := ok.ending
    rw [nextLump, ok.dummy] at ending
    rw [nextLump, size_congr lastHeader, ok.dummy, ← ending]
    exact congrArg (hasFlag · .prev) sameEnding

end

/-- Replace the lumps `mid` between `start` and `stop` by `mid'`. -/
theorem RegionOk.edit {entry flag flag' exit : Bool} {start stop : Nat}
    (ok : RegionOk memory allocated region (left ++ mid ++ right))
    (before : Segment memory allocated true region.first left entry start)
    (middle : Segment other allocated' entry start mid' flag' stop)
    (after : Segment memory allocated flag stop right exit region.last)
    (outside : TagsOutside memory other start stop)
    (sameFlag : prevInUse other start = prevInUse memory start)
    (sameSize : size other stop = size memory stop)
    (sameEnding : prev other region.last = prev memory region.last)
    (sameUse : ∀ p, p ∈ left ∨ p ∈ right → (p ∈ allocated' ↔ p ∈ allocated))
    (allowed : flag' = flag ∨ flag' = true ∨ ∀ p ∈ right.head?, p ∈ allocated) :
    RegionOk other allocated' region (left ++ mid' ++ right) := by
  have alignedFirst := ok.first_aligned
  have alignedStart := (before.aligned alignedFirst).1
  have alignedStop := (middle.aligned alignedStart).1
  have alignedLast := (after.aligned alignedStop).1
  have firstLe := before.tiles.le
  have stopLe := after.tiles.le
  have startLe := middle.tiles.le
  have first_eq : region.first = region.start + 16 := rfl
  have last_eq : region.last = region.stop - 32 := rfl
  have low : ∀ p, p % 16 = 0 → 16 ≤ p → p < start →
      other (header p) = memory (header p) := by
    intro p aligned positive below
    apply outside <;> unfold header gcHead <;> omega
  have high : ∀ p, p % 16 = 0 → stop < p → other (header p) = memory (header p) := by
    intro p aligned above
    apply outside <;> unfold header gcHead <;> omega
  have flagAt : ∀ p, p % 16 = 0 → 16 ≤ p → p ≤ start →
      prevInUse other p = prevInUse memory p := by
    intro p aligned positive le
    rcases Nat.lt_or_eq_of_le le with below | rfl
    · exact prevInUse_congr (low p aligned positive below)
    · exact sameFlag
  have sizeAt : ∀ p, p % 16 = 0 → stop ≤ p → size other p = size memory p := by
    intro p aligned le
    rcases Nat.lt_or_eq_of_le le with above | rfl
    · exact size_congr (high p aligned above)
    · exact sameSize
  have leftOk : Segment other allocated' true region.first left entry start := by
    apply before.congr
    · intro p member
      have := before.tiles.mem_bounds member
      exact size_congr (low p ((before.aligned alignedFirst).2 p member) (by omega)
        (by omega))
    · intro p member
      have := before.tiles.mem_bounds member
      have aligned := (before.aligned alignedFirst).2 p member
      obtain ⟨_, tags⟩ := before.tagged_of_mem member
      have rounded := tags.rounded
      apply flagAt <;> unfold nextLump <;> omega
    · intro p member _
      have := before.tiles.mem_bounds member
      have aligned := (before.aligned alignedFirst).2 p member
      obtain ⟨_, tags⟩ := before.tagged_of_mem member
      have rounded := tags.rounded
      apply outside <;> unfold footer gcHead <;> omega
    · exact fun p member => sameUse p (.inl member)
  have rightOk : Segment other allocated' flag stop right exit region.last := by
    apply after.congr
    · intro p member
      have := after.tiles.mem_bounds member
      exact sizeAt p ((after.aligned alignedStop).2 p member) (by omega)
    · intro p member
      have := after.tiles.mem_bounds member
      have aligned := (after.aligned alignedStop).2 p member
      obtain ⟨_, tags⟩ := after.tagged_of_mem member
      have rounded := tags.rounded
      apply prevInUse_congr
      apply high <;> unfold nextLump <;> omega
    · intro p member _
      have := after.tiles.mem_bounds member
      have aligned := (after.aligned alignedStop).2 p member
      obtain ⟨_, tags⟩ := after.tagged_of_mem member
      have rounded := tags.rounded
      apply outside <;> unfold footer gcHead <;> omega
    · exact fun p member => sameUse p (.inr member)
  have allowed : flag' = flag ∨ flag' = true ∨
      ∀ p ∈ right.head?, p ∈ allocated' := by
    refine allowed.imp_right (Or.imp_right fun used p isHead => ?_)
    exact (sameUse p (.inr (List.mem_of_mem_head? isHead))).mpr (used p isHead)
  obtain ⟨final, rightOk⟩ := rightOk.enter flag' allowed
  have lastSize : size other region.last = memAlign := by
    rw [sizeAt _ alignedLast stopLe, ok.dummy]
  refine ⟨ok.aligned, ok.room, ok.small, ?_, ?_, lastSize, ?_⟩
  · rw [flagAt _ alignedFirst (by omega) firstLe, ok.firstInUse]
  · refine ⟨final, ?_⟩
    rw [List.append_assoc]
    exact Segment.append_iff.mpr ⟨entry, start, leftOk,
      Segment.append_iff.mpr ⟨flag', stop, middle, rightOk⟩⟩
  · have ending := ok.ending
    rw [nextLump, ok.dummy] at ending
    rw [nextLump, lastSize, ← ending]
    exact congrArg (hasFlag · .prev) sameEnding

/-- The payload of a lump in use holds no tags. -/
theorem RegionOk.payload (ok : RegionOk memory allocated region lumps) {p : Nat}
    (member : p ∈ lumps) (inUse : p ∈ allocated)
    (same : ∀ address, address < p ∨ p + size memory p ≤ address + 4 →
      other address = memory address) :
    RegionOk other allocated region lumps := by
  have boundsP := ok.bounds member
  have sameHeader : ∀ q, q ≤ p ∨ p + size memory p ≤ q → 4 ≤ q →
      other (header q) = memory (header q) := by
    intro q outside positive
    apply same
    unfold header gcHead
    omega
  obtain ⟨exit, tagged⟩ := ok.tagged
  have first_eq : region.first = region.start + 16 := rfl
  have last_eq : region.last = region.stop - 32 := rfl
  have lastSize : size other region.last = size memory region.last :=
    size_congr (sameHeader _ (by omega) (by omega))
  refine ⟨ok.aligned, ok.room, ok.small, ?_, ⟨exit, ?_⟩, ?_, ?_⟩
  · rw [prevInUse_congr (sameHeader _ (by omega) (by omega)), ok.firstInUse]
  · refine tagged.congr ?_ ?_ ?_ (fun _ _ => Iff.rfl)
    · intro q inLumps
      have boundsQ := ok.bounds inLumps
      cases equal : decide (q = p) with
      | true =>
          obtain rfl := of_decide_eq_true equal
          exact size_congr (sameHeader q (by omega) (by omega))
      | false =>
          have apart := ok.disjoint inLumps member (of_decide_eq_false equal)
          exact size_congr (sameHeader q (by omega) (by omega))
    · intro q inLumps
      have boundsQ := ok.bounds inLumps
      unfold nextLump
      cases equal : decide (q = p) with
      | true =>
          obtain rfl := of_decide_eq_true equal
          exact prevInUse_congr (sameHeader _ (by omega) (by omega))
      | false =>
          have apart := ok.disjoint inLumps member (of_decide_eq_false equal)
          exact prevInUse_congr (sameHeader _ (by omega) (by omega))
    · intro q inLumps isFree
      have boundsQ := ok.bounds inLumps
      have different : q ≠ p := by
        rintro rfl
        exact isFree inUse
      have apart := ok.disjoint inLumps member different
      apply same
      unfold footer gcHead
      omega
  · rw [lastSize, ok.dummy]
  · rw [nextLump, lastSize, ok.dummy]
    have ending := ok.ending
    rw [nextLump, ok.dummy] at ending
    rw [prevInUse_congr (sameHeader _ (by unfold memAlign; omega) (by omega)), ending]

end

end LaTTe.Gc.Manual
