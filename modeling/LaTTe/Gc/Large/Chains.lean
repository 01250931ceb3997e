import LaTTe.Data.Ring
import LaTTe.Gc.Large.ObjectSet
import LaTTe.Gc.Manual.Contents

namespace LaTTe.Gc

open LaTTe.Data Manual

structure LargeObject where
  p : Nat
  size : Nat
  deriving DecidableEq, Repr

def LargeObject.node (object : LargeObject) : Nat :=
  largeSetNode object.p object.size

theorem LargeObject.node_spec (object : LargeObject) :
    object.p + object.size ≤ object.node ∧ object.node < object.p + object.size + 4 ∧
      object.node % 4 = 0 := by
  unfold LargeObject.node largeSetNode
  omega

namespace LargeArea

/-- Where `large_objects` is. -/
def static (area : LargeArea) : Region where
  start := area.table
  stop := area.table + largeSetSize * 12

structure Placed (area : LargeArea) (regions : List Region) (layout : Region → List Nat)
    (live : List LargeObject) : Prop where
  sound : Sound ⟨area.space.large, regions, live.map LargeObject.p⟩ layout
  away : ∀ region ∈ regions, region.Apart area.static
  table : 0 < area.table
  distinct : ∀ object ∈ live, ∀ other ∈ live, object.p = other.p → object = other
  room : ∀ object ∈ live, object.node + 16 ≤ object.p + Gc.size area.memory object.p

structure Linked (area : LargeArea) (live : List LargeObject)
    (chain : Nat → List LargeObject) : Prop where
  ring : ∀ index < largeSetSize,
    Ring area.next area.prev (area.sentinel index) ((chain index).map LargeObject.node)
  ends : ∀ index < largeSetSize, area.object (area.sentinel index) = 0
  named : ∀ object ∈ live, area.object object.node = object.p
  members : ∀ index object, object ∈ chain index ↔ object ∈ live ∧ chainIndex object.p = index

inductive IsNode (area : LargeArea) (live : List LargeObject) : Nat → Prop where
  | sentinel (index : Nat) (below : index < largeSetSize) : IsNode area live (area.sentinel index)
  | object (object : LargeObject) (member : object ∈ live) : IsNode area live object.node

structure Kept (area after : LargeArea) (live : List LargeObject) : Prop where
  table : after.table = area.table
  objects : after.objects = area.objects
  nodes : ∀ object ∈ live, ∀ address, object.node ≤ address → address < object.node + 12 →
    after.memory address = area.memory address

structure Rewired (area after : LargeArea) (regions : List Region)
    (layout : Region → List Nat) (live : List LargeObject) : Prop where
  placed : Placed after regions layout live
  table : after.table = area.table
  spaceTable : after.space.table = area.space.table
  marked : ∀ object ∈ live, after.marked object.p = area.marked object.p
  contents : ∀ object ∈ live, ∀ address, object.p ≤ address →
    address + 4 ≤ object.node → after.memory address = area.memory address

theorem chainIndex_lt (p : Nat) : chainIndex p < largeSetSize :=
  Nat.mod_lt _ (by decide)

section

variable {area after : LargeArea} {regions : List Region} {layout : Region → List Nat}
  {held live live' : List LargeObject} {chain chain' : Nat → List LargeObject}
  {object other : LargeObject} {x y : Nat}

theorem IsNode.mono (isNode : IsNode area live x) (subset : live ⊆ live') :
    IsNode area live' x := by
  cases isNode with
  | sentinel index below => exact .sentinel index below
  | object object member => exact .object object (subset member)

theorem IsNode.table_congr (isNode : IsNode area live x) (same : after.table = area.table) :
    IsNode after live x := by
  cases isNode with
  | sentinel index below =>
      have equal : area.sentinel index = after.sentinel index := by
        rw [LargeArea.sentinel, LargeArea.sentinel, same]
      exact equal ▸ .sentinel index below
  | object object member => exact .object object member

theorem inTable_sentinel {index address : Nat} (below : index < largeSetSize)
    (low : area.sentinel index ≤ address) (high : address < area.sentinel index + 12) :
    area.InTable address := by
  unfold sentinel at low high
  unfold InTable
  omega

section

variable (placed : Placed area regions layout live)

include placed

theorem Placed.bounds (member : object ∈ live) :
    object.p % 16 = 0 ∧ 16 ≤ object.p ∧ object.node + 16 ≤
        object.p + Gc.size area.memory object.p ∧
      object.p + Gc.size area.memory object.p ≤ wordSize ∧
      ∀ address, object.p ≤ address + 4 → address < object.p + Gc.size area.memory object.p →
        ¬area.InTable address := by
  obtain ⟨region, inRegions, inLayout⟩ :=
    placed.sound.held object.p (List.mem_map_of_mem member)
  have bounds := (placed.sound.regions region inRegions).bounds inLayout
  have small := (placed.sound.regions region inRegions).small
  have apart := placed.away region inRegions
  have room := placed.room object member
  dsimp only at bounds
  change _ ∧ _ ∧ _ ∧ _ ∧ object.p + Gc.size area.memory object.p + 32 ≤ _ at bounds
  unfold Region.Apart LargeArea.static at apart
  refine ⟨bounds.1, by omega, room, by omega, ?_⟩
  intro address low high inside
  unfold InTable at inside
  dsimp only at apart
  omega

theorem Placed.apart (member : object ∈ live) (inLive : other ∈ live) (different : object ≠ other) :
    object.p + Gc.size area.memory object.p ≤ other.p ∨
      other.p + Gc.size area.memory other.p ≤ object.p :=
  placed.sound.disjoint (placed.sound.held _ (List.mem_map_of_mem member))
    (placed.sound.held _ (List.mem_map_of_mem inLive))
    (fun same => different (placed.distinct object member other inLive same))

theorem Placed.node_inTable_iff
    (member : object ∈ live) {address : Nat} (low : object.node ≤ address)
    (high : address < object.node + 12) : ¬area.InTable address := by
  obtain ⟨_, _, room, _, outside⟩ := placed.bounds member
  have spec := object.node_spec
  exact outside address (by omega) (by omega)

theorem Placed.clear (isNode : IsNode area live x) (isOther : IsNode area live y) : Clear x y := by
  unfold Clear
  cases isNode with
  | sentinel index below =>
      cases isOther with
      | sentinel index' below' =>
          unfold LargeArea.sentinel
          omega
      | object object member =>
          have low := placed.node_inTable_iff member (Nat.le_refl _) (by omega)
          have high := placed.node_inTable_iff member
            (show object.node ≤ object.node + 11 by omega) (by omega)
          unfold InTable at low high
          unfold LargeArea.sentinel
          omega
  | object object member =>
      cases isOther with
      | sentinel index below =>
          have low := placed.node_inTable_iff member (Nat.le_refl _) (by omega)
          have high := placed.node_inTable_iff member
            (show object.node ≤ object.node + 11 by omega) (by omega)
          unfold InTable at low high
          unfold LargeArea.sentinel
          omega
      | object other inLive =>
          rcases eq_or_ne object other with rfl | different
          · exact .inl rfl
          · have apart := placed.apart member inLive different
            have room := placed.room object member
            have roomOther := placed.room other inLive
            have spec := object.node_spec
            have specOther := other.node_spec
            omega

theorem Placed.node_pos (isNode : IsNode area live x) : 0 < x := by
  cases isNode with
  | sentinel index below =>
      have positive := placed.table
      unfold LargeArea.sentinel
      omega
  | object object member =>
      have bounds := placed.bounds member
      have spec := object.node_spec
      omega

theorem Placed.header_ne (member : object ∈ live) {address : Nat} (low : object.p ≤ address)
    (high : address + 4 < object.p + Gc.size area.memory object.p) (inLive : other ∈ live) :
    header other.p ≠ address := by
  have bounds := placed.bounds inLive
  unfold header gcHead
  rcases eq_or_ne object other with rfl | different
  · omega
  · have apart := placed.apart member inLive different
    omega

theorem Placed.write (member : object ∈ live)
    {address : Nat} (value : Nat) (low : object.p ≤ address)
    (high : address + 4 < object.p + Gc.size area.memory object.p) :
    Placed (area.store address value) regions layout live ∧
      (∀ other ∈ live, (area.store address value).marked other.p = area.marked other.p) ∧
      (area.store address value).memory = area.memory.store address value := by
  obtain ⟨_, _, _, _, outside⟩ := placed.bounds member
  rw [store_outside (outside address (by omega) (by omega))]
  refine ⟨⟨?_, placed.away, placed.table, placed.distinct, ?_⟩, ?_, rfl⟩
  · apply placed.sound.write (List.mem_map_of_mem member)
    · intro other outer
      apply Memory.store_other
      change other < object.p ∨ object.p + Gc.size area.memory object.p ≤ other + 4 at outer
      omega
    · rfl
  · intro other inLive
    have same : Gc.size (area.memory.store address value) other.p =
        Gc.size area.memory other.p :=
      size_congr (Memory.store_other _ _ (placed.header_ne member low high inLive))
    change _ ≤ other.p + Gc.size (area.memory.store address value) other.p
    rw [same]
    exact placed.room other inLive
  · intro other inLive
    exact congrArg (hasFlag · .mark)
      (Memory.store_other _ _ (placed.header_ne member low high inLive))

theorem Rewired.refl :
    Rewired area area regions layout live :=
  ⟨placed, rfl, rfl, fun _ _ => rfl, fun _ _ _ _ _ => rfl⟩

end

theorem Rewired.set (rewired : Rewired area after regions layout live)
    (isNode : IsNode area live x) (field : NodeField) (value : Nat) :
    Rewired area (after.set x field value) regions layout live := by
  have offset : field.offset ≤ 8 := by cases field <;> decide
  have placed := rewired.placed
  have table : (after.set x field value).table = area.table :=
    (set_table after x field value).trans rewired.table
  have spaceTable : (after.set x field value).space.table = area.space.table :=
    (store_spaceTable after _ value).trans rewired.spaceTable
  have isNode := isNode.table_congr rewired.table
  cases isNode with
  | sentinel index below =>
      have inside : after.InTable (after.sentinel index + field.offset) :=
        inTable_sentinel below (by omega) (by omega)
      unfold LargeArea.set at table spaceTable ⊢
      rw [store_inside inside] at table spaceTable ⊢
      exact ⟨⟨placed.sound, placed.away, placed.table, placed.distinct, placed.room⟩, table,
        spaceTable, rewired.marked, rewired.contents⟩
  | object object member =>
      have bounds := placed.bounds member
      have spec := object.node_spec
      have inside : object.node + field.offset + 4 <
          object.p + Gc.size after.memory object.p := by omega
      obtain ⟨written, marked, memory⟩ := placed.write member value (by omega) inside
      refine ⟨written, table, spaceTable,
        fun other inLive => (marked other inLive).trans (rewired.marked other inLive), ?_⟩
      intro other inLive address low high
      refine Eq.trans ?_ (rewired.contents other inLive address low high)
      refine (congrFun memory address).trans (Memory.store_other _ _ ?_)
      rcases eq_or_ne object other with rfl | different
      · omega
      · have apart := placed.apart member inLive different
        have room := placed.room other inLive
        have specOther := other.node_spec
        omega

theorem Kept.of_untouched (placed : Placed area regions layout held) (subset : live ⊆ held)
    (table : after.table = area.table) (objects : after.objects = area.objects)
    (untouched : ∀ object ∈ live, Untouched area.memory after.memory object.p) :
    Kept area after live := by
  refine ⟨table, objects, fun object member address low high => ?_⟩
  have room := placed.room object (subset member)
  have spec := object.node_spec
  exact (untouched object member).payload address (by omega) (by omega)

theorem Kept.get (kept : Kept area after live) (placed : Placed area regions layout held)
    (subset : live ⊆ held) (isNode : IsNode area live x) (field : NodeField) :
    after.get x field = area.get x field := by
  have offset : field.offset ≤ 8 := by cases field <;> decide
  have inTable (address : Nat) : after.InTable address ↔ area.InTable address := by
    rw [InTable, InTable, kept.table]
  unfold LargeArea.get load
  simp only [inTable]
  cases isNode with
  | sentinel index below =>
      rw [if_pos (inTable_sentinel below (by omega) (by omega)),
        if_pos (inTable_sentinel below (by omega) (by omega)), kept.objects]
  | object object member =>
      have outside : ¬area.InTable (object.node + field.offset) :=
        placed.node_inTable_iff (subset member) (by omega) (by omega)
      rw [if_neg outside, if_neg outside]
      exact kept.nodes object member _ (by omega) (by omega)

theorem Placed.header_injective (placed : Placed area regions layout live)
    (member : object ∈ live) (inLive : other ∈ live) (same : header object.p = header other.p) :
    object = other := by
  apply placed.distinct object member other inLive
  have bounds := placed.bounds member
  have boundsOther := placed.bounds inLive
  unfold header gcHead at same
  omega

theorem Placed.setHeader (placed : Placed area regions layout live) (member : object ∈ live)
    {value : Nat} (sameSize : maskSize value = maskSize (area.memory (header object.p)))
    (sameFlag : hasFlag value .prev = hasFlag (area.memory (header object.p)) .prev) :
    Placed (area.setHeader object.p value) regions layout live ∧
      Kept area (area.setHeader object.p value) live ∧
      ∀ other ∈ live, ∀ address, other.p ≤ address → address + 4 ≤ other.node →
        (area.setHeader object.p value).memory address = area.memory address := by
  have lump := placed.sound.isLump (placed.sound.held _ (List.mem_map_of_mem member))
  have words {other : LargeObject} (inLive : other ∈ live) {address : Nat} (low : other.p ≤ address)
      (high : address + 4 < other.p + Gc.size area.memory other.p) :
      (area.setHeader object.p value).memory address = area.memory address :=
    Memory.store_other _ _ (placed.header_ne inLive low high member).symm
  refine ⟨⟨placed.sound.reflag lump sameSize sameFlag, placed.away, placed.table,
    placed.distinct, ?_⟩, ⟨rfl, rfl, ?_⟩, ?_⟩
  · intro other inLive
    have same : Gc.size (area.setHeader object.p value).memory other.p =
        Gc.size area.memory other.p := size_reflag sameSize other.p
    rw [same]
    exact placed.room other inLive
  · intro other inLive address low high
    have room := placed.room other inLive
    have spec := other.node_spec
    exact words inLive (by omega) (by omega)
  · intro other inLive address low high
    have room := placed.room other inLive
    exact words inLive low (by omega)

theorem Linked.isNode (linked : Linked area live chain) {index : Nat}
    (below : index < largeSetSize)
    (member : x ∈ area.sentinel index :: (chain index).map LargeObject.node) :
    IsNode area live x := by
  rcases List.mem_cons.mp member with rfl | inside
  · exact .sentinel index below
  · obtain ⟨object, inChain, rfl⟩ := List.mem_map.mp inside
    exact .object object ((linked.members index object).mp inChain).1

theorem Linked.chain_subset (linked : Linked area live chain) (index : Nat) :
    chain index ⊆ live :=
  fun object member => ((linked.members index object).mp member).1

theorem sentinel_congr (same : after.table = area.table) (index : Nat) :
    after.sentinel index = area.sentinel index := by
  rw [LargeArea.sentinel, LargeArea.sentinel, same]

theorem Linked.kept (linked : Linked area live chain) (subset : live ⊆ held)
    (placed : Placed area regions layout held) (kept : Kept area after live) :
    Linked after live chain where
  ring := by
    intro index below
    rw [sentinel_congr kept.table]
    apply (linked.ring index below).congr
    · exact fun node member =>
        kept.get placed subset (linked.isNode below member) .next
    · exact fun node member =>
        kept.get placed subset (linked.isNode below member) .prev
  ends := by
    intro index below
    rw [sentinel_congr kept.table]
    exact (kept.get placed subset (.sentinel index below) .object).trans (linked.ends index below)
  named := by
    intro object member
    exact (kept.get placed subset (.object object member) .object).trans
      (linked.named object member)
  members := linked.members

end

end LargeArea

end LaTTe.Gc
