import LaTTe.Gc.Large.Chains

namespace LaTTe.Gc

open LaTTe.Data Manual

namespace LargeArea

/-! Searching the set and adding to it. -/

section

variable {area : LargeArea} {regions : List Region} {layout : Region → List Nat}
  {held live : List LargeObject} {chain : Nat → List LargeObject} {object : LargeObject}
  {first p : Nat}

def Rest (first : Nat) (rest : List LargeObject) : Nat :=
  (rest.map LargeObject.node).headD first

theorem rest_eq_head (first : Nat) (rest : List LargeObject) :
    (rest.map LargeObject.node ++ [first]).head (by simp) = Rest first rest := by
  cases rest <;> rfl

structure Onward (area : LargeArea) (first : Nat) (rest : List LargeObject) : Prop where
  links : (rest.map LargeObject.node ++ [first]).IsChain (Joined area.next area.prev)
  ends : area.object first = 0
  named : ∀ object ∈ rest, area.object object.node = object.p ∧ object.p ≠ 0

theorem Onward.tail {rest : List LargeObject} (onward : Onward area first (object :: rest)) :
    area.next object.node = Rest first rest ∧ Onward area first rest := by
  obtain ⟨links, ends, named⟩ := onward
  refine ⟨?_, links.tail, ends, fun other member => named other (List.mem_cons_of_mem _ member)⟩
  cases rest with
  | nil => exact links.rel.1
  | cons second others => exact links.rel.1

theorem searchChain_rest {rest : List LargeObject} (onward : Onward area first rest) {fuel : Nat}
    (enough : rest.length < fuel) :
    area.searchChain p fuel (Rest first rest) = some (decide (p ∈ rest.map LargeObject.p)) := by
  induction rest generalizing fuel with
  | nil =>
      obtain ⟨fuel, rfl⟩ := Nat.exists_eq_succ_of_ne_zero (Nat.ne_zero_of_lt enough)
      exact if_pos onward.ends
  | cons object rest ih =>
      obtain ⟨fuel, rfl⟩ := Nat.exists_eq_succ_of_ne_zero (Nat.ne_zero_of_lt enough)
      obtain ⟨named, nonzero⟩ := onward.named object List.mem_cons_self
      obtain ⟨next, onward⟩ := onward.tail
      change (if area.object object.node = 0 then _ else
        if area.object object.node = p then _ else
          area.searchChain p fuel (area.next object.node)) = _
      rw [named, if_neg nonzero]
      by_cases same : object.p = p
      · rw [if_pos same]
        simp [same]
      · rw [if_neg same, next, ih onward (Nat.lt_of_succ_lt_succ enough)]
        simp [Ne.symm same]

theorem Linked.onward (linked : Linked area live chain) (subset : live ⊆ held)
    (placed : Placed area regions layout held) {index : Nat} (below : index < largeSetSize) :
    area.next (area.sentinel index) = Rest (area.sentinel index) (chain index) ∧
      Onward area (area.sentinel index) (chain index) := by
  have ring := linked.ring index below
  refine ⟨ring.first.trans (rest_eq_head _ _), ring.joined.tail, linked.ends index below, ?_⟩
  intro object member
  have inLive := ((linked.members index object).mp member).1
  have bounds := placed.bounds (subset inLive)
  exact ⟨linked.named object inLive, by omega⟩

theorem Linked.length_lt (linked : Linked area live chain) (subset : live ⊆ held)
    (placed : Placed area regions layout held) {index : Nat} (below : index < largeSetSize) :
    (chain index).length < wordSize := by
  have nodes (object : LargeObject) (member : object ∈ chain index) :
      0 < object.node ∧ object.node < wordSize := by
    have inHeld := subset ((linked.members index object).mp member).1
    have bounds := placed.bounds inHeld
    have spec := object.node_spec
    omega
  have distinct : (0 :: (chain index).map LargeObject.node).Nodup := by
    refine List.nodup_cons.mpr ⟨?_, (List.nodup_cons.mp (linked.ring index below).distinct).2⟩
    intro member
    obtain ⟨object, inChain, zero⟩ := List.mem_map.mp member
    exact absurd zero (nodes object inChain).1.ne'
  have included : 0 :: (chain index).map LargeObject.node ⊆ List.range wordSize := by
    intro node member
    rw [List.mem_range]
    rcases List.mem_cons.mp member with rfl | member
    · decide
    · obtain ⟨object, inChain, rfl⟩ := List.mem_map.mp member
      exact (nodes object inChain).2
  have shorter := List.Nodup.length_le_of_subset distinct included
  simpa [Nat.succ_le_iff] using shorter

theorem Linked.largeSetExists (linked : Linked area live chain) (subset : live ⊆ held)
    (placed : Placed area regions layout held) (p : Nat) :
    area.largeSetExists p = some (decide (p ∈ live.map LargeObject.p)) := by
  have below := chainIndex_lt p
  obtain ⟨start, onward⟩ := linked.onward subset placed below
  rw [LargeArea.largeSetExists, start,
    searchChain_rest onward (linked.length_lt subset placed below)]
  congr 2
  rw [List.mem_map, List.mem_map, eq_iff_iff]
  constructor
  · rintro ⟨object, member, same⟩
    exact ⟨object, ((linked.members _ object).mp member).1, same⟩
  · rintro ⟨object, member, rfl⟩
    exact ⟨object, (linked.members _ object).mpr ⟨member, rfl⟩, rfl⟩

/-! Adding. -/

theorem Placed.node_ne_sentinel (placed : Placed area regions layout held)
    (member : object ∈ held) {index : Nat} (below : index < largeSetSize) :
    object.node ≠ area.sentinel index := by
  intro same
  exact placed.node_inTable_iff member (Nat.le_refl _) (by omega)
    (inTable_sentinel below (by omega) (by omega))

theorem largeSetAdd_eq (placed : Placed area regions layout held) (member : object ∈ held) :
    area.largeSetAdd object.p object.size =
      ((((area.set object.node .object object.p).set object.node .prev
        (area.sentinel (chainIndex object.p))).set object.node .next
        (area.next (area.sentinel (chainIndex object.p)))).set
        (area.next (area.sentinel (chainIndex object.p))) .prev object.node).set
        (area.sentinel (chainIndex object.p)) .next object.node := by
  have below := chainIndex_lt object.p
  have different := placed.node_ne_sentinel member below
  have behind (before : LargeArea) (changed : NodeField) (value : Nat) :
      (before.set object.node changed value).next (area.sentinel (chainIndex object.p)) =
        before.next (area.sentinel (chainIndex object.p)) :=
    (get_set (placed.clear (.object object member) (.sentinel _ below)) changed .next).trans
      (if_neg fun both => different both.1.symm)
  have node_eq : largeSetNode object.p object.size = object.node := rfl
  unfold LargeArea.largeSetAdd
  rw [node_eq]
  dsimp only
  simp only [behind]

theorem get_largeSetAdd (placed : Placed area regions layout held)
    (linked : Linked area live chain) (subset : live ⊆ held) (member : object ∈ held)
    {x : Nat} (isNode : IsNode area held x) (field : NodeField) :
    (area.largeSetAdd object.p object.size).get x field =
      if x = area.sentinel (chainIndex object.p) ∧ field = .next then object.node
      else if x = area.next (area.sentinel (chainIndex object.p)) ∧ field = .prev then object.node
      else if x = object.node ∧ field = .next then
        area.next (area.sentinel (chainIndex object.p))
      else if x = object.node ∧ field = .prev then area.sentinel (chainIndex object.p)
      else if x = object.node ∧ field = .object then object.p
      else area.get x field := by
  have below := chainIndex_lt object.p
  have first : IsNode area held (area.sentinel (chainIndex object.p)) := .sentinel _ below
  have node : IsNode area held object.node := .object object member
  have follower : IsNode area held (area.next (area.sentinel (chainIndex object.p))) :=
    (linked.isNode below (linked.ring _ below).first_mem).mono subset
  rw [largeSetAdd_eq placed member, get_set (placed.clear first isNode),
    get_set (placed.clear follower isNode), get_set (placed.clear node isNode),
    get_set (placed.clear node isNode), get_set (placed.clear node isNode)]

theorem Placed.node_ne (placed : Placed area regions layout held) (member : object ∈ held)
    {other : LargeObject} (inHeld : other ∈ held) (different : object ≠ other) :
    object.node ≠ other.node := by
  have apart := placed.apart member inHeld different
  have room := placed.room object member
  have roomOther := placed.room other inHeld
  have spec := object.node_spec
  have specOther := other.node_spec
  omega

theorem Placed.largeSetAdd (placed : Placed area regions layout held)
    (linked : Linked area live chain) (subset : live ⊆ held) (member : object ∈ held) :
    Rewired area (area.largeSetAdd object.p object.size) regions layout held := by
  have below := chainIndex_lt object.p
  have first : IsNode area held (area.sentinel (chainIndex object.p)) := .sentinel _ below
  have node : IsNode area held object.node := .object object member
  have follower : IsNode area held (area.next (area.sentinel (chainIndex object.p))) :=
    (linked.isNode below (linked.ring _ below).first_mem).mono subset
  rw [largeSetAdd_eq placed member]
  exact ((((Rewired.refl placed).set node _ _).set node _ _).set node _ _
    |>.set follower _ _).set first _ _

section

variable (linked : Linked area live chain) (subset : live ⊆ held)
  (placed : Placed area regions layout held)

include linked subset placed

theorem Linked.index_unique {i j x : Nat} (belowI : i < largeSetSize)
    (belowJ : j < largeSetSize) (inI : x ∈ area.sentinel i :: (chain i).map LargeObject.node)
    (inJ : x ∈ area.sentinel j :: (chain j).map LargeObject.node) : i = j := by
  have inHeld {index : Nat} (below : index < largeSetSize) {object : LargeObject}
      (member : object ∈ chain index) : object ∈ held ∧ chainIndex object.p = index := by
    obtain ⟨inLive, same⟩ := (linked.members index object).mp member
    exact ⟨subset inLive, same⟩
  rcases List.mem_cons.mp inI with rfl | inI
  · rcases List.mem_cons.mp inJ with same | inJ
    · unfold sentinel at same
      omega
    · obtain ⟨object, member, same⟩ := List.mem_map.mp inJ
      exact absurd same (placed.node_ne_sentinel (inHeld belowJ member).1 belowI)
  · obtain ⟨object, member, rfl⟩ := List.mem_map.mp inI
    obtain ⟨heldI, indexI⟩ := inHeld belowI member
    rcases List.mem_cons.mp inJ with same | inJ
    · exact absurd same (placed.node_ne_sentinel heldI belowJ)
    · obtain ⟨other, member', same⟩ := List.mem_map.mp inJ
      obtain ⟨heldJ, indexJ⟩ := inHeld belowJ member'
      have equal : object = other := by
        by_contra different
        exact placed.node_ne heldI heldJ different same.symm
      rw [← indexI, ← indexJ, equal]

theorem Linked.node_apart {i j x y : Nat} (belowI : i < largeSetSize)
    (belowJ : j < largeSetSize) (elsewhere : i ≠ j)
    (inI : x ∈ area.sentinel i :: (chain i).map LargeObject.node)
    (inJ : y ∈ area.sentinel j :: (chain j).map LargeObject.node) : x ≠ y := by
  rintro rfl
  exact elsewhere (linked.index_unique subset placed belowI belowJ inI inJ)

theorem Linked.node_fresh (member : object ∈ held) (new : object ∉ live)
    {index : Nat} (below : index < largeSetSize) :
    object.node ∉ area.sentinel index :: (chain index).map LargeObject.node := by
  intro inside
  rcases List.mem_cons.mp inside with same | inside
  · exact placed.node_ne_sentinel member below same
  · obtain ⟨other, inChain, same⟩ := List.mem_map.mp inside
    have inLive := ((linked.members index other).mp inChain).1
    refine placed.node_ne member (subset inLive) ?_ same.symm
    rintro rfl
    exact new inLive

theorem Linked.ne_new (member : object ∈ held) (new : object ∉ live)
    {index x : Nat} (below : index < largeSetSize)
    (inside : x ∈ area.sentinel index :: (chain index).map LargeObject.node) :
    IsNode area held x ∧ x ≠ object.node :=
  ⟨(linked.isNode below inside).mono subset,
    fun same => linked.node_fresh subset placed member new below (same ▸ inside)⟩

theorem Linked.ring_largeSetAdd (member : object ∈ held) (new : object ∉ live) :
    Ring (area.largeSetAdd object.p object.size).next (area.largeSetAdd object.p object.size).prev
      (area.sentinel (chainIndex object.p))
      (object.node :: (chain (chainIndex object.p)).map LargeObject.node) := by
  have below := chainIndex_lt object.p
  have get {x : Nat} (isNode : IsNode area held x) :=
    get_largeSetAdd placed linked subset member isNode
  have follower := (linked.ring _ below).first_mem
  have inHeld {x : Nat} := linked.ne_new subset placed member new below (x := x)
  have first := inHeld List.mem_cons_self
  have node : IsNode area held object.node := .object object member
  apply (linked.ring _ below).link (linked.node_fresh subset placed member new below)
  · exact (get first.1 .next).trans (if_pos ⟨rfl, rfl⟩)
  · have apart := (inHeld follower).2
    exact (get node .prev).trans (by simp [apart.symm])
  · exact (get node .next).trans (by simp [first.2.symm])
  · exact (get (inHeld follower).1 .prev).trans (by simp)
  · intro other inside
    have distinct := (List.nodup_cons.mp (linked.ring _ below).distinct).1
    have apart := inHeld (List.mem_cons_of_mem _ inside)
    have notFirst : other ≠ area.sentinel (chainIndex object.p) := by
      rintro rfl
      exact distinct inside
    exact (get apart.1 .next).trans (by simp [notFirst, apart.2]; rfl)
  · intro other inside notFollower
    have apart := inHeld inside
    exact (get apart.1 .prev).trans (by simp [notFollower, apart.2]; rfl)

theorem Linked.ring_largeSetAdd_of_ne (member : object ∈ held) (new : object ∉ live)
    {index : Nat} (inRange : index < largeSetSize) (elsewhere : index ≠ chainIndex object.p) :
    Ring (area.largeSetAdd object.p object.size).next (area.largeSetAdd object.p object.size).prev
      (area.sentinel index) ((chain index).map LargeObject.node) := by
  have below := chainIndex_lt object.p
  have get {x : Nat} (isNode : IsNode area held x) :=
    get_largeSetAdd placed linked subset member isNode
  have follower := (linked.ring _ below).first_mem
  have inHeld {x : Nat} := linked.ne_new subset placed member new inRange (x := x)
  have away {x y : Nat} :=
    linked.node_apart subset placed inRange below elsewhere (x := x) (y := y)
  apply (linked.ring index inRange).congr
  · intro x inside
    have apart := inHeld inside
    exact (get apart.1 .next).trans (by simp [away inside List.mem_cons_self, apart.2]; rfl)
  · intro x inside
    have apart := inHeld inside
    exact (get apart.1 .prev).trans (by simp [away inside follower, apart.2]; rfl)

/-- `large_set_add` puts an object in front of its chain. -/
theorem Linked.largeSetAdd (member : object ∈ held) (new : object ∉ live) :
    Linked (area.largeSetAdd object.p object.size) (object :: live)
      (Function.update chain (chainIndex object.p) (object :: chain (chainIndex object.p))) := by
  have table := (placed.largeSetAdd linked subset member).table
  have get {x : Nat} (isNode : IsNode area held x) :=
    get_largeSetAdd placed linked subset member isNode
  have node : IsNode area held object.node := .object object member
  refine ⟨?_, ?_, ?_, ?_⟩
  · intro index inRange
    rw [sentinel_congr table]
    rcases eq_or_ne index (chainIndex object.p) with rfl | elsewhere
    · rw [Function.update_self, List.map_cons]
      exact linked.ring_largeSetAdd subset placed member new
    · rw [Function.update_of_ne elsewhere]
      exact linked.ring_largeSetAdd_of_ne subset placed member new inRange elsewhere
  · intro index inRange
    rw [sentinel_congr table]
    have apart := linked.ne_new subset placed member new inRange List.mem_cons_self
    refine (get apart.1 .object).trans ?_
    rw [if_neg (by simp), if_neg (by simp), if_neg (by simp), if_neg (by simp),
      if_neg fun both => apart.2 both.1]
    exact linked.ends index inRange
  · intro other inside
    rcases List.mem_cons.mp inside with rfl | inLive
    · exact (get node .object).trans (by simp)
    · have different : other.node ≠ object.node := by
        apply placed.node_ne (subset inLive) member
        rintro rfl
        exact new inLive
      refine (get (.object other (subset inLive)) .object).trans ?_
      rw [if_neg (by simp), if_neg (by simp), if_neg (by simp), if_neg (by simp),
        if_neg fun both => different both.1]
      exact linked.named other inLive
  · intro index other
    rcases eq_or_ne index (chainIndex object.p) with rfl | elsewhere
    · rw [Function.update_self, List.mem_cons, List.mem_cons, linked.members _, or_and_right]
      exact or_congr_left (iff_self_and.mpr fun same => same ▸ rfl)
    · rw [Function.update_of_ne elsewhere, linked.members index, List.mem_cons]
      refine and_congr_left fun same => (or_iff_right ?_).symm
      rintro rfl
      exact elsewhere same.symm

end

end

end LargeArea

end LaTTe.Gc
