import LaTTe.Gc.Large.Search

namespace LaTTe.Gc

open LaTTe.Data Manual

namespace LargeArea

/-! `sweep_large`. -/

def survivors (area : LargeArea) (swept objects : List LargeObject) : List LargeObject :=
  objects.filter fun object => decide (object ∉ swept) || area.marked object.p

structure Swept (area after : LargeArea) (regions : List Region) (live : List LargeObject)
    (chain : Nat → List LargeObject) (swept : List LargeObject) : Prop where
  table : after.table = area.table
  spaceTable : after.space.table = area.space.table
  placed : ∃ layout, Placed after regions layout (area.survivors swept live)
  linked : Linked after (area.survivors swept live) fun index => area.survivors swept (chain index)
  marked : ∀ object ∈ area.survivors swept live,
    after.marked object.p = (decide (object ∉ swept) && area.marked object.p)
  contents : ∀ object ∈ area.survivors swept live, ∀ address, object.p ≤ address →
    address + 4 ≤ object.node → after.memory address = area.memory address

section

variable {area after final : LargeArea} {regions : List Region} {layout : Region → List Nat}
  {live swept others : List LargeObject} {chain : Nat → List LargeObject}
  {object : LargeObject} {index : Nat}

theorem mem_survivors {objects : List LargeObject} :
    object ∈ area.survivors swept objects ↔
      object ∈ objects ∧ (object ∉ swept ∨ area.marked object.p = true) := by
  simp [survivors]

theorem survivors_nil (objects : List LargeObject) : area.survivors [] objects = objects := by
  simp [survivors]

theorem survivors_of_disjoint {objects : List LargeObject} (apart : swept.Disjoint objects) :
    area.survivors swept objects = objects := by
  refine List.filter_eq_self.mpr fun object member => ?_
  have outside : object ∉ swept := fun inside => apart inside member
  simp [outside]

theorem Swept.congr (first : Swept area after regions live chain swept)
    (same : ∀ object, object ∈ swept ↔ object ∈ others) :
    Swept area after regions live chain others := by
  have left (objects : List LargeObject) :
      area.survivors swept objects = area.survivors others objects := by
    simp only [survivors, same]
  obtain ⟨table, spaceTable, placed, linked, marked, contents⟩ := first
  simp only [left, same] at placed linked marked contents
  exact ⟨table, spaceTable, placed, linked, marked, contents⟩

theorem Swept.refl (placed : Placed area regions layout live) (linked : Linked area live chain) :
    Swept area area regions live chain [] := by
  refine ⟨rfl, rfl, ⟨layout, ?_⟩, ?_, ?_, fun _ _ _ _ _ => rfl⟩
  · rwa [survivors_nil]
  · simpa only [survivors_nil] using linked
  · simp

theorem Swept.survivors (first : Swept area after regions live chain swept)
    (apart : swept.Disjoint others) {objects : List LargeObject} (subset : objects ⊆ live) :
    after.survivors others (area.survivors swept objects) =
      area.survivors (swept ++ others) objects := by
  unfold LargeArea.survivors
  rw [List.filter_filter]
  apply List.filter_congr
  intro object member
  have marked := first.marked object
  rw [mem_survivors] at marked
  have marked := fun left => marked ⟨subset member, left⟩
  by_cases inSwept : object ∈ swept
  · have notOther : object ∉ others := fun inside => apart inSwept inside
    simp [inSwept, notOther]
  · have same := marked (.inl inSwept)
    simp [inSwept, same]

theorem Swept.trans (first : Swept area after regions live chain swept)
    (linked : Linked area live chain) (apart : swept.Disjoint others)
    (second : Swept after final regions (area.survivors swept live)
      (fun index => area.survivors swept (chain index)) others) :
    Swept area final regions live chain (swept ++ others) := by
  have left := first.survivors apart (List.Subset.refl live)
  have lefts (index : Nat) := first.survivors apart (linked.chain_subset index)
  have both (object : LargeObject) (member : object ∈ area.survivors (swept ++ others) live) :
      object ∈ area.survivors swept live ∧
        object ∈ after.survivors others (area.survivors swept live) := by
    rw [left]
    refine ⟨mem_survivors.mpr ?_, member⟩
    obtain ⟨inLive, kept⟩ := mem_survivors.mp member
    exact ⟨inLive, kept.imp_left fun outside inside => outside (List.mem_append_left _ inside)⟩
  refine ⟨second.table.trans first.table, second.spaceTable.trans first.spaceTable, ?_, ?_, ?_, ?_⟩
  · obtain ⟨layout, placed⟩ := second.placed
    exact ⟨layout, left ▸ placed⟩
  · have linked := second.linked
    simp only [left, lefts] at linked
    exact linked
  · intro object member
    obtain ⟨inFirst, inSecond⟩ := both object member
    rw [second.marked object inSecond, first.marked object inFirst]
    simp [Bool.and_left_comm, Bool.and_assoc]
  · intro object member address low high
    obtain ⟨inFirst, inSecond⟩ := both object member
    rw [second.contents object inSecond address low high,
      first.contents object inFirst address low high]

/-! One object. -/

theorem survivors_of_marked (marked : area.marked object.p = true) (objects : List LargeObject) :
    area.survivors [object] objects = objects := by
  refine List.filter_eq_self.mpr fun other _ => ?_
  rcases eq_or_ne other object with rfl | different
  · rw [marked, Bool.or_true]
  · simp [different]

theorem Swept.clearMark (placed : Placed area regions layout live)
    (linked : Linked area live chain) (member : object ∈ live)
    (marked : area.marked object.p = true) :
    Swept area (area.clearMark object.p) regions live chain [object] := by
  obtain ⟨after, kept, contents⟩ := placed.setHeader member
    (maskSize_clearFlag (area.memory (header object.p)) .mark) (by simp)
  refine ⟨rfl, rfl, ⟨layout, ?_⟩, ?_, ?_, ?_⟩
  · rw [survivors_of_marked marked]
    exact after
  · simp only [survivors_of_marked marked]
    exact linked.kept (List.Subset.refl live) placed kept
  · intro other inLive
    rw [survivors_of_marked marked] at inLive
    unfold LargeArea.marked
    rcases eq_or_ne other object with rfl | different
    · have stored : (area.clearMark other.p).memory (header other.p) =
          clearFlag (area.memory (header other.p)) .mark := Memory.store_same _ _ _
      rw [stored]
      simp
    · have away : header other.p ≠ header object.p := fun same =>
        different (placed.header_injective inLive member same)
      have same : (area.clearMark object.p).memory (header other.p) =
          area.memory (header other.p) := Memory.store_other _ _ away
      rw [same]
      simp [different]
  · intro other inLive
    rw [survivors_of_marked marked] at inLive
    exact contents other inLive

theorem survivors_of_unmarked (unmarked : area.marked object.p = false)
    (objects : List LargeObject) :
    area.survivors [object] objects = objects.filter (· ≠ object) := by
  refine List.filter_congr fun other _ => ?_
  rcases eq_or_ne other object with rfl | different
  · simp [unmarked]
  · simp [different]

theorem Linked.around (linked : Linked area live chain) (below : index < largeSetSize)
    {left right : List LargeObject} (split : chain index = left ++ object :: right) :
    area.prev object.node ∈ area.sentinel index :: (chain index).map LargeObject.node ∧
      area.next object.node ∈ area.sentinel index :: (chain index).map LargeObject.node ∧
      area.prev object.node ≠ object.node := by
  have ring := linked.ring index below
  rw [split, List.map_append, List.map_cons] at ring ⊢
  obtain ⟨before, behind⟩ := ring.around_mem
  have distinct := ring.distinct
  refine ⟨?_, ?_, ?_⟩
  · exact List.cons_subset_cons _ (List.subset_append_left _ _) before
  · rw [List.mem_append, List.mem_singleton] at behind
    simp only [List.mem_cons, List.mem_append]
    exact behind.symm.imp_right fun inside => .inr (.inr inside)
  · intro same
    rw [same] at before
    rw [← List.cons_append, List.nodup_append] at distinct
    exact distinct.2.2 _ before _ List.mem_cons_self rfl

section

variable (placed : Placed area regions layout live) (linked : Linked area live chain)
  (below : index < largeSetSize) (member : object ∈ live) {left right : List LargeObject}
  (split : chain index = left ++ object :: right)

include placed linked below member split

theorem unlink_eq :
    area.unlink object.node =
      (area.set (area.prev object.node) .next (area.next object.node)).set
        (area.next object.node) .prev (area.prev object.node) := by
  obtain ⟨prevIn, _, different⟩ := linked.around below split
  have get (field : NodeField) :
      (area.set (area.prev object.node) .next (area.next object.node)).get object.node field =
        area.get object.node field :=
    (get_set (placed.clear (linked.isNode below prevIn) (.object object member)) .next field).trans
      (if_neg fun both => different both.1.symm)
  unfold LargeArea.unlink
  dsimp only
  change (area.set _ _ _).set (LargeArea.get _ _ _) _ (LargeArea.get _ _ _) = _
  rw [get, get]
  rfl

theorem get_unlink {x : Nat} (isNode : IsNode area live x) (field : NodeField) :
    (area.unlink object.node).get x field =
      if x = area.next object.node ∧ field = .prev then area.prev object.node
      else if x = area.prev object.node ∧ field = .next then area.next object.node
      else area.get x field := by
  obtain ⟨prevIn, nextIn, _⟩ := linked.around below split
  rw [unlink_eq placed linked below member split,
    get_set (placed.clear (linked.isNode below nextIn) isNode),
    get_set (placed.clear (linked.isNode below prevIn) isNode)]

theorem Placed.unlink :
    Rewired area (area.unlink object.node) regions layout live := by
  obtain ⟨prevIn, nextIn, _⟩ := linked.around below split
  rw [unlink_eq placed linked below member split]
  exact ((Rewired.refl placed).set (linked.isNode below prevIn) _ _).set
    (linked.isNode below nextIn) _ _

end

theorem Linked.filter_split (linked : Linked area live chain) (below : index < largeSetSize)
    {left right : List LargeObject} (split : chain index = left ++ object :: right) :
    (chain index).filter (· ≠ object) = left ++ right := by
  have distinct := (List.nodup_cons.mp (linked.ring index below).distinct).2.of_map
  rw [split] at distinct ⊢
  obtain ⟨_, behind, apart⟩ := List.nodup_append.mp distinct
  have keeps (objects : List LargeObject) (absent : object ∉ objects) :
      objects.filter (· ≠ object) = objects := by
    refine List.filter_eq_self.mpr fun other member => decide_eq_true ?_
    rintro rfl
    exact absent member
  rw [List.filter_append, List.filter_cons_of_neg (by simp), keeps, keeps]
  · exact (List.nodup_cons.mp behind).1
  · exact fun inside => apart object inside object List.mem_cons_self rfl

section

variable (linked : Linked area live chain) (placed : Placed area regions layout live)
  (below : index < largeSetSize) (member : object ∈ live) {left right : List LargeObject}
  (split : chain index = left ++ object :: right)

include linked placed below member split

theorem Linked.ring_unlink :
    Ring (area.unlink object.node).next (area.unlink object.node).prev (area.sentinel index)
      (((chain index).filter (· ≠ object)).map LargeObject.node) := by
  obtain ⟨prevIn, nextIn, _⟩ := linked.around below split
  have get {x : Nat} (inside : x ∈ area.sentinel index :: (chain index).map LargeObject.node) :=
    get_unlink placed linked below member split (linked.isNode below inside)
  have ring := linked.ring index below
  have inside {x : Nat} (kept : x ∈ area.sentinel index ::
      (left.map LargeObject.node ++ right.map LargeObject.node)) :
      x ∈ area.sentinel index :: (chain index).map LargeObject.node := by
    rw [split, List.map_append, List.map_cons]
    exact List.cons_subset_cons _ ((List.sublist_cons_self _ _).append_left _).subset kept
  rw [linked.filter_split below split, List.map_append]
  rw [split, List.map_append, List.map_cons] at ring
  apply ring.unlink
  · exact (get prevIn .next).trans (by simp)
  · exact (get nextIn .prev).trans (by simp)
  · intro x kept notPrev
    exact (get (inside kept) .next).trans (by simp [notPrev]; rfl)
  · intro x kept notNext
    exact (get (inside kept) .prev).trans (by simp [notNext]; rfl)

theorem Linked.ring_unlink_of_ne
    {other : Nat} (inRange : other < largeSetSize) (elsewhere : other ≠ index) :
    Ring (area.unlink object.node).next (area.unlink object.node).prev (area.sentinel other)
      (((chain other).filter (· ≠ object)).map LargeObject.node) := by
  obtain ⟨prevIn, nextIn, _⟩ := linked.around below split
  have get {x : Nat} (inside : x ∈ area.sentinel other :: (chain other).map LargeObject.node) :=
    get_unlink placed linked below member split (linked.isNode inRange inside)
  have absent : (chain other).filter (· ≠ object) = chain other := by
    refine List.filter_eq_self.mpr fun another inChain => decide_eq_true ?_
    rintro rfl
    have first := ((linked.members other another).mp inChain).2
    have second := ((linked.members index another).mp (split ▸ by simp)).2
    exact elsewhere (first.symm.trans second)
  have away {x y : Nat} :=
    linked.node_apart (List.Subset.refl live) placed inRange below elsewhere (x := x) (y := y)
  rw [absent]
  apply (linked.ring other inRange).congr
  · intro x inside
    exact (get inside .next).trans (by simp [away inside prevIn]; rfl)
  · intro x inside
    exact (get inside .prev).trans (by simp [away inside nextIn]; rfl)

theorem Linked.unlink :
    Linked (area.unlink object.node) (live.filter (· ≠ object))
      fun other => (chain other).filter (· ≠ object) := by
  have table := (placed.unlink linked below member split).table
  have get {other x : Nat} (inRange : other < largeSetSize)
      (inside : x ∈ area.sentinel other :: (chain other).map LargeObject.node) :=
    get_unlink placed linked below member split (linked.isNode inRange inside)
  refine ⟨?_, ?_, ?_, ?_⟩
  · intro other inRange
    rw [sentinel_congr table]
    rcases eq_or_ne other index with rfl | elsewhere
    · exact linked.ring_unlink placed below member split
    · exact linked.ring_unlink_of_ne placed below member split inRange elsewhere
  · intro other inRange
    rw [sentinel_congr table]
    refine (get inRange List.mem_cons_self .object).trans ?_
    rw [if_neg (by simp), if_neg (by simp)]
    exact linked.ends other inRange
  · intro other inside
    obtain ⟨inLive, _⟩ := List.mem_filter.mp inside
    have inChain := (linked.members (chainIndex other.p) other).mpr ⟨inLive, rfl⟩
    refine (get (chainIndex_lt other.p)
      (List.mem_cons_of_mem _ (List.mem_map_of_mem inChain)) .object).trans ?_
    rw [if_neg (by simp), if_neg (by simp)]
    exact linked.named other inLive
  · intro other another
    rw [List.mem_filter, List.mem_filter, linked.members, and_right_comm]

end

/-- An object without a mark is taken out of its chain and given back. -/
theorem Swept.release (placed : Placed area regions layout live)
    (linked : Linked area live chain) (below : index < largeSetSize)
    {left right : List LargeObject} (split : chain index = left ++ object :: right)
    (unmarked : area.marked object.p = false) :
    ∃ after, (area.unlink object.node).free object.p = some after ∧
      Swept area after regions live chain [object] := by
  have member := linked.chain_subset index (split ▸ by simp : object ∈ chain index)
  have rewired := placed.unlink linked below member split
  obtain ⟨heap, layout', freed, sound, untouched⟩ :=
    memFree_sound rewired.placed.sound (List.mem_map_of_mem member)
  have left (objects : List LargeObject) := survivors_of_unmarked unmarked objects
  have spared {other : LargeObject} (inside : other ∈ live.filter (· ≠ object)) :
      other ∈ live ∧ Untouched (area.unlink object.node).memory heap.memory other.p := by
    obtain ⟨inLive, different⟩ := List.mem_filter.mp inside
    refine ⟨inLive, untouched other.p (List.mem_map_of_mem inLive) fun same => ?_⟩
    exact of_decide_eq_true different (placed.distinct other inLive object member same)
  refine ⟨_, congrArg (Option.map _) freed, rewired.table, rewired.spaceTable,
    ⟨layout', ?_⟩, ?_, ?_, ?_⟩
  · rw [left]
    refine ⟨sound.allocated_congr fun p => ?_, rewired.placed.away, rewired.placed.table, ?_, ?_⟩
    · simp only [List.mem_map, List.mem_filter, decide_eq_true_eq]
      constructor
      · rintro ⟨other, ⟨inLive, different⟩, rfl⟩
        exact ⟨⟨other, inLive, rfl⟩,
          fun same => different (placed.distinct other inLive object member same)⟩
      · rintro ⟨⟨other, inLive, rfl⟩, different⟩
        exact ⟨other, ⟨inLive, fun same => different (same ▸ rfl)⟩, rfl⟩
    · intro other inside another inside'
      exact placed.distinct other (List.mem_filter.mp inside).1 another
        (List.mem_filter.mp inside').1
    · intro other inside
      obtain ⟨inLive, kept⟩ := spared inside
      have room := rewired.placed.room other inLive
      rw [← kept.size] at room
      exact room
  · simp only [left]
    refine (linked.unlink placed below member split).kept
      (List.filter_subset_self _) rewired.placed (Kept.of_untouched rewired.placed
        (List.filter_subset_self _) rfl rfl fun other inside => (spared inside).2)
  · intro other inside
    rw [left] at inside
    obtain ⟨inLive, kept⟩ := spared inside
    have different : other ≠ object := of_decide_eq_true (List.mem_filter.mp inside).2
    have same : decide (other ∉ [object]) = true := by simp [different]
    rw [same, Bool.true_and]
    exact kept.mark.trans (rewired.marked other inLive)
  · intro other inside address low high
    rw [left] at inside
    obtain ⟨inLive, kept⟩ := spared inside
    have room := rewired.placed.room other inLive
    have spec := other.node_spec
    exact (kept.payload address low (by omega)).trans
      (rewired.contents other inLive address low high)

/-! The loops. -/

def unmarked (area : LargeArea) (objects : List LargeObject) : List Nat :=
  (objects.filter fun object => !area.marked object.p).map LargeObject.p

theorem Swept.unmarked_rest (first : Swept area after regions live chain swept)
    (inLive : others ⊆ live) (apart : swept.Disjoint others) :
    after.unmarked others = area.unmarked others := by
  unfold LargeArea.unmarked
  congr 1
  apply List.filter_congr
  intro object member
  have outside : object ∉ swept := fun inside => apart inside member
  rw [first.marked object (mem_survivors.mpr ⟨inLive member, .inl outside⟩)]
  simp [outside]

theorem unmarked_cons (object : LargeObject) (rest : List LargeObject) :
    area.unmarked (object :: rest) =
      if area.marked object.p = true then area.unmarked rest
      else object.p :: area.unmarked rest := by
  unfold LargeArea.unmarked
  cases marked : area.marked object.p <;> simp [marked]

theorem sweepChain_cons (placed : Placed area regions layout live)
    (linked : Linked area live chain) (below : index < largeSetSize)
    {left rest : List LargeObject} (split : chain index = left ++ object :: rest) (fuel : Nat) :
    sweepChain (area.sentinel index) (fuel + 1) area object.node =
      if area.marked object.p = true then
        sweepChain (area.sentinel index) fuel (area.clearMark object.p)
          (Rest (area.sentinel index) rest)
      else
        ((area.unlink object.node).free object.p).bind fun after =>
          (sweepChain (area.sentinel index) fuel after (Rest (area.sentinel index) rest)).bind
            fun (final, freed) => some (final, object.p :: freed) := by
  have member := linked.chain_subset index (split ▸ by simp : object ∈ chain index)
  obtain ⟨prevIn, nextIn, _⟩ := linked.around below split
  have named := linked.named object member
  have bounds := placed.bounds member
  have next : area.next object.node = Rest (area.sentinel index) rest := by
    have ring := linked.ring index below
    rw [split, List.map_append, List.map_cons] at ring
    exact ring.around.2.trans (rest_eq_head _ _)
  have asserted : ¬(object.node = 0 ∨ object.node = area.sentinel index ∨
      area.prev object.node = 0 ∨ area.next object.node = 0) := by
    rintro (zero | same | zero | zero)
    · exact (placed.node_pos (.object object member)).ne' zero
    · exact placed.node_ne_sentinel member below same
    · exact (placed.node_pos (linked.isNode below prevIn)).ne' zero
    · exact (placed.node_pos (linked.isNode below nextIn)).ne' zero
  rw [sweepChain, named, if_neg (by omega), if_neg asserted, next]
  rfl

/-- A chain from some object on. -/
theorem sweepChain_rest (placed : Placed area regions layout live)
    (linked : Linked area live chain) (below : index < largeSetSize)
    {left rest : List LargeObject} (split : chain index = left ++ rest) {fuel : Nat}
    (enough : rest.length < fuel) :
    ∃ after, sweepChain (area.sentinel index) fuel area (Rest (area.sentinel index) rest) =
        some (after, area.unmarked rest) ∧
      Swept area after regions live chain rest := by
  induction rest generalizing area layout live chain left fuel with
  | nil =>
      obtain ⟨fuel, rfl⟩ := Nat.exists_eq_succ_of_ne_zero (Nat.ne_zero_of_lt enough)
      exact ⟨area, if_pos (linked.ends index below), .refl placed linked⟩
  | cons object rest ih =>
      obtain ⟨fuel, rfl⟩ := Nat.exists_eq_succ_of_ne_zero (Nat.ne_zero_of_lt enough)
      have inLive : object :: rest ⊆ live :=
        List.Subset.trans (split ▸ List.subset_append_right left _) (linked.chain_subset index)
      have distinct := (List.nodup_cons.mp (linked.ring index below).distinct).2.of_map
      rw [split] at distinct
      have apart : [object].Disjoint rest := List.singleton_disjoint.mpr
        (List.nodup_cons.mp (List.nodup_append.mp distinct).2.1).1
      -- the rest of the chain is swept in the area that the object has left
      have goOn {middle : LargeArea} {left' : List LargeObject}
          (first : Swept area middle regions live chain [object])
          (split' : area.survivors [object] (chain index) = left' ++ rest) :
          ∃ after, sweepChain (area.sentinel index) fuel middle
              (Rest (area.sentinel index) rest) = some (after, area.unmarked rest) ∧
            Swept area after regions live chain (object :: rest) := by
        obtain ⟨layout', placed'⟩ := first.placed
        obtain ⟨after, sweeps, second⟩ := ih placed' first.linked split'
          (Nat.lt_of_succ_lt_succ enough)
        rw [sentinel_congr first.table,
          first.unmarked_rest (List.subset_of_cons_subset inLive) apart] at sweeps
        exact ⟨after, sweeps, first.trans linked apart second⟩
      rw [unmarked_cons]
      change ∃ after, sweepChain _ (fuel + 1) area object.node = _ ∧ _
      rw [sweepChain_cons placed linked below split]
      cases marked : area.marked object.p with
      | true =>
          rw [if_pos rfl, if_pos rfl]
          apply goOn (.clearMark placed linked (inLive List.mem_cons_self) marked)
          rw [survivors_of_marked marked, split, List.append_cons]
      | false =>
          rw [if_neg Bool.false_ne_true, if_neg Bool.false_ne_true]
          obtain ⟨middle, freed, first⟩ := Swept.release placed linked below split marked
          obtain ⟨after, sweeps, swept⟩ := goOn first
            ((survivors_of_unmarked marked _).trans (linked.filter_split below split))
          refine ⟨after, ?_, swept⟩
          rw [freed, Option.bind_some, sweeps, Option.bind_some]

/-- Some of the chains. -/
theorem sweepChains_returns (placed : Placed area regions layout live)
    (linked : Linked area live chain) {indices : List Nat} (distinct : indices.Nodup)
    (below : ∀ index ∈ indices, index < largeSetSize) :
    ∃ after, sweepChains indices area = some (after, area.unmarked (indices.flatMap chain)) ∧
      Swept area after regions live chain (indices.flatMap chain) := by
  induction indices generalizing area layout live chain with
  | nil => exact ⟨area, rfl, .refl placed linked⟩
  | cons index rest ih =>
      obtain ⟨new, distinct⟩ := List.nodup_cons.mp distinct
      have inRange := below index List.mem_cons_self
      obtain ⟨start, _⟩ := linked.onward (List.Subset.refl live) placed inRange
      obtain ⟨middle, sweeps, first⟩ := sweepChain_rest placed linked inRange
        (List.nil_append (chain index)).symm (linked.length_lt (List.Subset.refl live) placed inRange)
      obtain ⟨layout', placed'⟩ := first.placed
      have apart : (chain index).Disjoint (rest.flatMap chain) := by
        intro object inChain inRest
        obtain ⟨other, member, inOther⟩ := List.mem_flatMap.mp inRest
        have same := ((linked.members index object).mp inChain).2
        have same' := ((linked.members other object).mp inOther).2
        exact new (same.symm.trans same' ▸ member)
      have unswept : rest.flatMap (fun other => area.survivors (chain index) (chain other)) =
          rest.flatMap chain := by
        refine List.flatMap_congr fun other member => survivors_of_disjoint ?_
        exact fun object inChain inOther =>
          apart inChain (List.mem_flatMap.mpr ⟨other, member, inOther⟩)
      obtain ⟨after, sweepsRest, second⟩ := ih placed' first.linked distinct fun other member =>
        below other (List.mem_cons_of_mem _ member)
      have inLive : rest.flatMap chain ⊆ live := by
        intro object inside
        obtain ⟨other, _, inOther⟩ := List.mem_flatMap.mp inside
        exact linked.chain_subset other inOther
      rw [unswept] at sweepsRest second
      rw [first.unmarked_rest inLive apart] at sweepsRest
      refine ⟨after, ?_, first.trans linked apart second⟩
      rw [sweepChains, start, sweeps]
      dsimp only [Option.bind_eq_bind, Option.bind_some]
      rw [sweepsRest]
      simp [LargeArea.unmarked]

/-- `sweep_large` returns with its assertions true.  It frees the objects that have no mark,
and the others stay, without a mark. -/
theorem sweepLarge_returns (placed : Placed area regions layout live)
    (linked : Linked area live chain) :
    ∃ after freed, area.sweepLarge = some (after, freed) ∧
      (∀ p, p ∈ freed ↔ ∃ object ∈ live, object.p = p ∧ area.marked p = false) ∧
      Swept area after regions live chain live := by
  obtain ⟨after, sweeps, swept⟩ := sweepChains_returns placed linked
    List.nodup_range fun index member => List.mem_range.mp member
  have all (object : LargeObject) :
      object ∈ (List.range largeSetSize).flatMap chain ↔ object ∈ live := by
    rw [List.mem_flatMap]
    constructor
    · rintro ⟨index, _, inChain⟩
      exact linked.chain_subset index inChain
    · intro inLive
      exact ⟨chainIndex object.p, List.mem_range.mpr (chainIndex_lt object.p),
        (linked.members _ object).mpr ⟨inLive, rfl⟩⟩
  refine ⟨after, _, sweeps, fun p => ?_, swept.congr all⟩
  rw [LargeArea.unmarked, List.mem_map]
  constructor
  · rintro ⟨object, inside, rfl⟩
    obtain ⟨member, unmarked⟩ := List.mem_filter.mp inside
    exact ⟨object, (all object).mp member, rfl, by simpa using unmarked⟩
  · rintro ⟨object, inLive, rfl, unmarked⟩
    exact ⟨object, List.mem_filter.mpr ⟨(all object).mpr inLive, by simp [unmarked]⟩, rfl⟩

end

end LargeArea

end LaTTe.Gc
