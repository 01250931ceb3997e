import LaTTe.Gc.Mark.Walk

namespace LaTTe.Gc

open LaTTe.Data

/-- The pointers `walk_roots` passes to `mark`. -/
def Roots.pointers (heap : Heap) (roots : Roots) : List Nat :=
  roots.bundles.flatMap heap.walk ++ roots.outOfMemoryError ::
    roots.liveThreads.flatMap fun thread =>
      thread.1 :: thread.2.filter roots.isObject

private theorem foldlM_flatMap {α β σ : Type} (step : σ → β → Option σ)
    (items : α → List β) (outer : List α) (state : σ) :
    (outer.flatMap items).foldlM step state =
      outer.foldlM (fun state entry => (items entry).foldlM step state) state := by
  induction outer generalizing state with
  | nil => rfl
  | cons entry rest ih =>
      simp only [List.flatMap_cons, List.foldlM_append, List.foldlM_cons]
      cases (items entry).foldlM step state with
      | none => rfl
      | some next => exact ih next

private theorem foldlM_markPotential (heap : Heap) (roots : Roots)
    (words : List Nat) (marker : Marker) :
    (words.filter roots.isObject).foldlM (mark heap) marker =
      words.foldlM (markPotential heap roots) marker := by
  induction words generalizing marker with
  | nil => rfl
  | cons word rest ih =>
      cases object : roots.isObject word with
      | false =>
          simp only [List.filter_cons, object, List.foldlM_cons, markPotential]
          simpa using ih marker
      | true =>
          simp only [List.filter_cons, object, List.foldlM_cons, markPotential,
            if_true]
          cases mark heap marker word with
          | none => rfl
          | some next => exact ih next

theorem walkRoots_eq (heap : Heap) (roots : Roots) (marker : Marker) :
    walkRoots heap roots marker =
      (roots.pointers heap).foldlM (mark heap) marker := by
  rw [Roots.pointers, List.foldlM_append, foldlM_flatMap]
  simp only [List.foldlM_cons, foldlM_flatMap, foldlM_markPotential]
  rfl

inductive Heap.Reach (heap : Heap) (objects roots : List Nat) : Nat → Prop
  | root {p : Nat} : p ∈ roots → p ∈ objects → Heap.Reach heap objects roots p
  | walk {p q : Nat} : Heap.Reach heap objects roots p → q ∈ heap.walk p →
      q ∈ objects → Heap.Reach heap objects roots q

theorem Heap.Reach.mono {heap : Heap} {objects roots more : List Nat}
    (included : ∀ p ∈ roots, p ∈ more) {p : Nat}
    (reach : Heap.Reach heap objects roots p) :
    Heap.Reach heap objects more p := by
  induction reach with
  | root isRoot member => exact .root (included _ isRoot) member
  | walk _ edge member ih => exact .walk ih edge member

def Heap.objects (heap : Heap) (memory : Memory) (layout : Nat → List Nat) :
    List Nat :=
  heap.largeObjects.flatten ++
    heap.usedBlocks.flatMap fun block =>
      ((layout block).filter fun head => !hasFlag (memory head) .free).map
        (· + gcHead)

/-- The heap as a collection finds it.  Memory outside the collected heap is
referenced only where it carries a permanent mark. -/
structure Heap.WellFormed (heap : Heap) (memory : Memory)
    (layout : Nat → List Nat) : Prop where
  scannable : Scannable heap memory layout
  edges : ∀ p ∈ heap.objects memory layout, ∀ q ∈ heap.walk p,
    Markable memory (heap.objects memory layout) q

theorem Heap.objects_subset_scan (heap : Heap) (memory : Memory)
    (layout : Nat → List Nat) {p : Nat}
    (member : p ∈ heap.objects memory layout) : p ∈ heap.scan layout := by
  simp only [Heap.objects, Heap.scan, List.mem_append, List.mem_flatMap,
    List.mem_map, List.mem_filter] at member ⊢
  rcases member with large | ⟨block, inUse, head, ⟨inBlock, _⟩, same⟩
  · exact .inl large
  · exact .inr ⟨block, inUse, head, inBlock, same⟩

theorem Heap.WellFormed.graph {heap : Heap} {memory : Memory}
    {layout : Nat → List Nat} (wellFormed : heap.WellFormed memory layout)
    (roots : List Nat) :
    Graph heap memory (heap.objects memory layout)
      (heap.Reach (heap.objects memory layout) roots) where
  room := fun p member => wellFormed.scannable.room p
    (heap.objects_subset_scan memory layout member)
  unmarked := fun p member => wellFormed.scannable.unmarked p
    (heap.objects_subset_scan memory layout member)
  edges := wellFormed.edges
  reach_walk := fun _ _ reached _ edge member => .walk reached edge member

theorem markStackSuggestBound_le (stackSize heapSize : Nat)
    (small : stackSize < 2 ^ 31) :
    markStackSuggestBound stackSize heapSize ≤ stackSize / 2 := by
  simp only [markStackSuggestBound]
  split
  · exact Nat.le_refl _
  · rename_i below
    have range := Int.bmod_lt (x := (heapSize : Int)) (m := 2 ^ 32) (by decide)
    have range' := Int.le_bmod (x := (heapSize : Int)) (m := 2 ^ 32) (by decide)
    generalize (heapSize : Int).bmod (2 ^ 32) = signed at *
    have quotient : -(2 ^ 24) ≤ signed.tdiv 128 ∧ signed.tdiv 128 < 2 ^ 24 := by
      rcases Int.le_total 0 signed with nonneg | neg
      · rw [Int.tdiv_eq_ediv_of_nonneg nonneg]
        omega
      · rw [← Int.neg_neg signed, Int.neg_tdiv,
          Int.tdiv_eq_ediv_of_nonneg (by omega)]
        omega
    generalize signed.tdiv 128 = quotient at *
    omega

/-- The mark phase returns, given enough rounds, and has then marked exactly
the objects reachable from the pointers handed to `mark` as roots. -/
def MarksExactly (heap : Heap) (roots : Roots) (finals : Finals)
    (heapSize : Nat) (memory : Memory) (layout : Nat → List Nat) : Prop :=
  ∃ enough, ∀ fuel, enough ≤ fuel → ∃ marker lists,
    markPhase heap roots finals heapSize fuel memory = some (marker, lists) ∧
      ∀ p ∈ heap.objects memory layout, marker.isMarked p = true ↔
        heap.Reach (heap.objects memory layout)
          (roots.pointers heap ++ lists.doFinal.map (·.object)) p

section

variable {heap : Heap} {roots : Roots} {finals : Finals} {memory : Memory}
  {layout : Nat → List Nat} {heapSize : Nat}

theorem Consistent.mono {objects : List Nat} {reach more : Nat → Prop}
    {marker : Marker} (included : ∀ p, reach p → more p)
    (consistent : Consistent heap memory objects reach marker) :
    Consistent heap memory objects more marker where
  memory_eq := by
    intro address
    rcases consistent.memory_eq address with same | ⟨p, hp, reached, rest⟩
    · exact .inl same
    · exact .inr ⟨p, hp, included p reached, rest⟩
  entries := fun p hp =>
    ⟨(consistent.entries p hp).1, included p (consistent.entries p hp).2⟩
  fits := consistent.fits
  collecting := consistent.collecting
  settled := consistent.settled

def initialMarker (heap : Heap) (memory : Memory) : Marker :=
  { memory := memory, state := .normal, stack := [], cursor := 0,
    saveCursor := 0, limit := heap.stackSize }

theorem initialMarker_consistent (objects : List Nat)
    (reach : Nat → Prop) :
    Consistent heap memory objects reach (initialMarker heap memory) where
  memory_eq := fun _ => .inl rfl
  entries := by simp [initialMarker]
  fits := Nat.zero_le _
  collecting := by simp [initialMarker]
  settled := fun _ => rfl

def chooseState (bound : Nat) (marker : Marker) : Marker :=
  if marker.stack.length ≤ bound then
    { marker with cursor := 0, limit := bound + 1, state := .collect }
  else
    marker

theorem chooseState_isMarked (bound : Nat) (marker : Marker) (p : Nat) :
    (chooseState bound marker).isMarked p = marker.isMarked p := by
  unfold chooseState
  split <;> rfl

theorem chooseState_ready {objects pushed : List Nat}
    {reach : Nat → Prop} {bound : Nat} {marker : Marker}
    (roomy : bound + 1 < heap.stackSize)
    (unmarked : ∀ p ∈ objects, hasFlag (memory (header p)) .mark = false)
    (consistent : Consistent heap memory objects reach marker)
    (grows : Grows heap objects (initialMarker heap memory) pushed marker) :
    Consistent heap memory objects reach (chooseState bound marker) ∧
      Ready heap objects (chooseState bound marker) := by
  have nothing : Covered heap objects (initialMarker heap memory) [] := by
    intro _ p member marked
    rw [Marker.isMarked, initialMarker, unmarked p member] at marked
    contradiction
  have covered : Covered heap objects marker marker.stack := by
    rw [grows.stack_eq]
    exact grows.covered nothing
  have settled : marker.state ≠ .collect := by
    intro collecting
    have := (grows.collecting collecting).1
    simp [initialMarker] at this
  unfold chooseState
  split
  · rename_i few
    have quiet : marker.state ≠ .overflow := by
      intro overflow
      rcases grows.overflow overflow with before | ⟨_, full⟩
      · simp [initialMarker] at before
      · omega
    refine ⟨⟨consistent.memory_eq, consistent.entries, consistent.fits, ?_, ?_⟩,
      ?_⟩
    · intro _
      exact ⟨Nat.le_succ_of_le few, roomy, Nat.zero_le _⟩
    · simp
    · rw [Ready, if_pos rfl]
      exact fun _ => covered quiet
  · refine ⟨consistent, ?_⟩
    rw [Ready, if_neg settled]
    exact covered

def rootObjects (heap : Heap) (roots : Roots) (objects : List Nat) : Finset Nat :=
  objects.toFinset.filter fun p => p ∈ roots.pointers heap

/-- What the mark phase leaves on the mark stack.  It collects the live objects only if
there are few roots, and then it gives up only when there are more than `bound + 1`. -/
structure StackLeft (heap : Heap) (roots : Roots) (objects : List Nat) (bound : Nat)
    (marker : Marker) : Prop where
  entries : ∀ p ∈ marker.stack, p ∈ objects
  within : marker.state = .collect → marker.stack.length ≤ marker.limit
  few : (rootObjects heap roots objects).card ≤ bound →
    Gathering objects .collect (bound + 1) marker
  many : bound < (rootObjects heap roots objects).card → marker.state ≠ .collect

private theorem initialMarker_gathering {objects : List Nat}
    (unmarked : ∀ p ∈ objects, hasFlag (memory (header p)) .mark = false) :
    Gathering objects .normal heap.stackSize (initialMarker heap memory) where
  bounded := fun _ => rfl
  distinct := fun _ => List.nodup_nil
  listed := by
    intro _ p member
    rw [Marker.isMarked, initialMarker, unmarked p member]
    simp
  beyond := fun other => absurd rfl other
  never := fun collecting => by contradiction

private theorem chooseState_stackLeft {objects pushed : List Nat} {bound : Nat}
    {marker : Marker} (roomy : bound < heap.stackSize)
    (grows : Grows heap objects (initialMarker heap memory) pushed marker)
    (entries : ∀ p ∈ marker.stack, p ∈ objects)
    (gathering : Gathering objects .normal heap.stackSize marker)
    (roots_eq : markedObjects objects marker = rootObjects heap roots objects) :
    StackLeft heap roots objects bound (chooseState bound marker) := by
  rw [chooseState]
  by_cases normal : marker.state = .normal
  · have count := gathering.card_eq entries normal
    rw [roots_eq] at count
    by_cases few : marker.stack.length ≤ bound
    · rw [if_pos few]
      refine ⟨entries, fun _ => Nat.le_succ_of_le few, fun _ => ?_, fun many => by omega⟩
      exact ⟨fun _ => rfl, fun _ => gathering.distinct normal,
        fun _ => gathering.listed normal, fun other => absurd rfl other, fun _ => rfl⟩
    · rw [if_neg few]
      exact ⟨entries, by simp [normal], fun few => by omega, fun _ => by simp [normal]⟩
  · have many := gathering.beyond normal
    rw [roots_eq] at many
    have overflow : marker.state = .overflow := by
      cases state : marker.state with
      | collect => exact absurd (gathering.never state) (by simp)
      | normal => contradiction
      | overflow => rfl
    rcases grows.overflow overflow with before | ⟨_, full⟩
    · simp [initialMarker] at before
    · rw [if_neg (by omega)]
      exact ⟨entries, by simp [overflow], fun few => by omega, fun _ => by simp [overflow]⟩

theorem splitFinals_doFinal (memory : Memory) (finals : Finals)
    {node : FinalizeNode} (member : node ∈ (splitFinals memory finals).doFinal) :
    node ∈ finals.hasFinal ++ finals.doFinal := by
  have fold : ∀ (nodes : List FinalizeNode) (lists : Finals),
      node ∈ (nodes.foldl (fun lists node =>
        if hasFlag (memory (header node.address)) .mark then
          { lists with hasFinal := node :: lists.hasFinal }
        else
          { lists with doFinal := node :: lists.doFinal }) lists).doFinal →
      node ∈ nodes ++ lists.doFinal := by
    intro nodes
    induction nodes with
    | nil => exact fun _ member => member
    | cons head rest ih =>
        intro lists member
        have inRest := ih _ member
        simp only [List.mem_append, List.cons_append, List.mem_cons] at inRest ⊢
        rcases inRest with inRest | inLists
        · exact .inr (.inl inRest)
        · split at inLists
          · exact .inr (.inr inLists)
          · rcases List.mem_cons.mp inLists with rfl | inLists
            · exact .inl rfl
            · exact .inr (.inr inLists)
  exact fold finals.hasFinal { hasFinal := [], doFinal := finals.doFinal } member

/-- After `mark` has been called on the finalizable objects the mark stack can
be walked once more. -/
theorem Finished.ready {objects pushed : List Nat} {before after : Marker}
    (finished : Finished heap objects before)
    (grows : Grows heap objects before pushed after) :
    Ready heap objects after := by
  have covered := grows.covered finished.closed
  rw [Ready]
  split
  · rename_i collecting
    obtain ⟨start, same⟩ := grows.collecting collecting
    have complete := finished.collected start
    rw [grows.stack_eq, same, complete, List.drop_left]
    exact covered
  · apply covered.mono
    intro p hp
    rw [grows.stack_eq]
    exact .inl (by simpa using .inr hp)

theorem Finished.reach_isMarked {objects pointers : List Nat} {marker : Marker}
    (finished : Finished heap objects marker)
    (room : ∀ p ∈ objects, gcHead ≤ p)
    (rooted : ∀ p ∈ pointers, p = 0 ∨ marker.isMarked p = true) {p : Nat}
    (reached : heap.Reach objects pointers p) : marker.isMarked p = true := by
  have nonzero : ∀ q ∈ objects, q ≠ 0 := by
    intro q hq
    have := room q hq
    unfold gcHead at this
    omega
  induction reached with
  | root isRoot member =>
      exact (rooted _ isRoot).resolve_left (nonzero _ member)
  | @walk p q reached edge member ih =>
      have source : p ∈ objects := by
        cases reached with
        | root _ member => exact member
        | walk _ _ member => exact member
      rcases finished.closed finished.quiet _ source ih with waiting | closed
      · simp at waiting
      · exact (closed _ edge).resolve_left (nonzero _ member)

/-- The mark phase returns; it splits the finalizable objects by what is marked when the
roots have been walked, and marks exactly what can then be reached. -/
theorem markPhase_spec (wellFormed : heap.WellFormed memory layout)
    (rootsOk : ∀ q ∈ roots.pointers heap,
      Markable memory (heap.objects memory layout) q)
    (finalsOk : ∀ later : Memory,
      (∀ p, hasFlag (memory (header p)) .mark = true →
        hasFlag (later (header p)) .mark = true) →
      ∀ node ∈ (splitFinals later finals).doFinal,
        Markable memory (heap.objects memory layout) node.object)
    (roomy : markStackSuggestBound heap.stackSize heapSize + 1 < heap.stackSize) :
    ∃ enough, ∀ fuel, enough ≤ fuel → ∃ (marker : Marker) (later : Memory),
      (∀ p, hasFlag (memory (header p)) .mark = true →
        hasFlag (later (header p)) .mark = true) ∧
      markPhase heap roots finals heapSize fuel memory =
        some (marker, splitFinals later finals) ∧
      (∀ p, hasFlag (memory (header p)) .mark = true → marker.isMarked p = true) ∧
      (∀ p ∈ heap.objects memory layout, marker.isMarked p = true ↔
        heap.Reach (heap.objects memory layout)
          (roots.pointers heap ++ (splitFinals later finals).doFinal.map (·.object)) p) ∧
      StackLeft heap roots (heap.objects memory layout)
        (markStackSuggestBound heap.stackSize heapSize) marker := by
  let objects := heap.objects memory layout
  refine ⟨2 * objects.length + heap.stackSize + 2, fun fuel enough => ?_⟩
  have scannable := wellFormed.scannable
  have included : ∀ p ∈ objects, p ∈ heap.scan layout :=
    fun p => heap.objects_subset_scan memory layout
  have graph := wellFormed.graph (roots.pointers heap)
  obtain ⟨rooted, pushedRoots, hroots, rootedOk, growsRoots, rootsMarked⟩ :=
    markAll_spec graph _ (initialMarker_consistent _ _) rootsOk
      (fun q hq member => .root hq member)
  obtain ⟨chosenOk, chosenReady⟩ :=
    chooseState_ready roomy graph.unmarked rootedOk growsRoots
  obtain ⟨walked, hwalk, walkedOk, walkedDone, walkedMarks, walkedLeft, walkedGathers⟩ :=
    walkMarkStack_spec scannable graph included enough chosenOk chosenReady
  let lists := splitFinals walked.memory finals
  have kept : ∀ p, hasFlag (memory (header p)) .mark = true →
      hasFlag (walked.memory (header p)) .mark = true := by
    intro p isMarked
    apply walkedMarks p
    rw [chooseState_isMarked]
    exact growsRoots.keeps p isMarked
  let everything := roots.pointers heap ++ lists.doFinal.map (·.object)
  have graphAll := wellFormed.graph everything
  have walkedAll : Consistent heap memory objects
      (heap.Reach objects everything) walked :=
    walkedOk.mono fun _ reached => reached.mono (by simp +contextual [everything])
  have finalsMarkable : ∀ q ∈ lists.doFinal.map (·.object), Markable memory objects q := by
    intro q hq
    obtain ⟨node, inList, rfl⟩ := List.mem_map.mp hq
    exact finalsOk walked.memory kept node inList
  have finalsReached : ∀ q ∈ lists.doFinal.map (·.object), q ∈ objects →
      heap.Reach objects everything q :=
    fun q hq member => .root (by simp [everything, hq]) member
  obtain ⟨marked, pushedFinals, hmarked, markedOk, growsFinals, finalsMarked⟩ :=
    markAll_spec graphAll _ walkedAll finalsMarkable finalsReached
  obtain ⟨final, hfinal, finalOk, finalDone, finalMarks, finalLeft, finalGathers⟩ :=
    walkMarkStack_spec scannable graphAll included enough markedOk
      (walkedDone.ready growsFinals)
  refine ⟨final, walked.memory, kept, ?_,
    fun p isMarked => finalMarks p (growsFinals.keeps p (kept p isMarked)), ?_, ?_⟩
  · have start : walkRoots heap roots (initialMarker heap memory) = some rooted := by
      rw [walkRoots_eq]
      exact hroots
    have finalize : (splitFinals walked.memory finals).doFinal.foldlM
        (fun marker node => mark heap marker node.object) walked = some marked := by
      rw [← hmarked, List.foldlM_map]
    unfold initialMarker at start
    unfold chooseState at hwalk
    simp only [markPhase, start, Option.bind_eq_bind, Option.bind_some, hwalk,
      walkFinals, finalize, hfinal]
  · intro p member
    constructor
    · exact fun isMarked =>
        finalOk.reach_of_isMarked graphAll.room graphAll.unmarked member isMarked
    · apply finalDone.reach_isMarked graphAll.room
      intro q hq
      rcases List.mem_append.mp hq with fromRoots | fromFinals
      · rcases rootsMarked q fromRoots with zero | isMarked
        · exact .inl zero
        · rw [← chooseState_isMarked
            (markStackSuggestBound heap.stackSize heapSize)] at isMarked
          exact .inr (finalMarks q (growsFinals.keeps q (walkedMarks q isMarked)))
      · rcases finalsMarked q fromFinals with zero | isMarked
        · exact .inl zero
        · exact .inr (finalMarks q isMarked)
  · have rootsOnly : Consistent heap memory objects (· ∈ roots.pointers heap)
        (initialMarker heap memory) := initialMarker_consistent _ _
    obtain ⟨rootedOnly, gathering⟩ := markAll_gathering graph.room _ rootsOnly rootsOk
      (fun q hq _ => hq) (by simp) (initialMarker_gathering graph.unmarked) hroots
    have roots_eq : markedObjects objects rooted = rootObjects heap roots objects := by
      ext p
      rw [mem_markedObjects, rootObjects, Finset.mem_filter, List.mem_toFinset]
      refine and_congr_right fun member => ⟨?_, fun isRoot => ?_⟩
      · exact rootedOnly.reach_of_isMarked graph.room graph.unmarked member
      · rcases rootsMarked p isRoot with zero | isMarked
        · have := graph.room p member
          unfold gcHead at this
          omega
        · exact isMarked
    have chosen : StackLeft heap roots objects (markStackSuggestBound heap.stackSize heapSize)
        (chooseState (markStackSuggestBound heap.stackSize heapSize) rooted) :=
      chooseState_stackLeft (by omega) growsRoots
        (fun p inStack => (rootedOk.entries p inStack).1) gathering roots_eq
    refine ⟨fun p inStack => (finalOk.entries p inStack).1,
      fun collecting => (finalOk.collecting collecting).1, ?_, ?_⟩
    · intro few
      obtain ⟨_, markedGathers⟩ := markAll_gathering graph.room _ walkedAll finalsMarkable
        finalsReached (by simp) (walkedGathers _ (chosen.few few)) hmarked
      exact finalGathers _ markedGathers
    · intro many
      apply finalLeft
      intro collecting
      exact walkedLeft (chosen.many many) (growsFinals.collecting collecting).1

theorem markPhase_exact (wellFormed : heap.WellFormed memory layout)
    (rootsOk : ∀ q ∈ roots.pointers heap,
      Markable memory (heap.objects memory layout) q)
    (finalsOk : ∀ node ∈ finals.hasFinal ++ finals.doFinal,
      Markable memory (heap.objects memory layout) node.object)
    (roomy : markStackSuggestBound heap.stackSize heapSize + 1 < heap.stackSize) :
    MarksExactly heap roots finals heapSize memory layout := by
  obtain ⟨enough, returns⟩ := markPhase_spec wellFormed rootsOk
    (fun later _ node inList => finalsOk node (splitFinals_doFinal later finals inList)) roomy
  refine ⟨enough, fun fuel more => ?_⟩
  obtain ⟨marker, later, _, run, _, exactly, _⟩ := returns fuel more
  exact ⟨marker, splitFinals later finals, run, exactly⟩

end

/-- Exactness of the mark phase for one size of the mark stack, over every heap,
every set of roots and every list of finalizable objects. -/
def ExactAtSize (stackSize : Nat) : Prop :=
  ∀ (heap : Heap) (roots : Roots) (finals : Finals) (heapSize : Nat)
    (memory : Memory) (layout : Nat → List Nat),
    heap.stackSize = stackSize →
    heap.WellFormed memory layout →
    (∀ q ∈ roots.pointers heap, Markable memory (heap.objects memory layout) q) →
    (∀ node ∈ finals.hasFinal ++ finals.doFinal,
      Markable memory (heap.objects memory layout) node.object) →
    MarksExactly heap roots finals heapSize memory layout

theorem markPhase_marks_exactly_reachable (stackSize : Nat)
    (roomy : 3 ≤ stackSize)
    (isInt : stackSize < 2 ^ 31) :
    ExactAtSize stackSize := by
  intro heap roots finals heapSize memory layout size wellFormed rootsOk finalsOk
  apply markPhase_exact wellFormed rootsOk finalsOk
  have bound := markStackSuggestBound_le stackSize heapSize isInt
  rw [size]
  omega

/-! Stacks of fewer than three entries leave no room between the suggested bound
and the end of the stack. -/

private def threeObjects (stackSize : Nat) : Heap where
  walk := fun p => if p = 16 then [32] else []
  stackSize := stackSize
  largeObjects := [[16, 32, 48]]
  smallRegions := []

private def errorRoot (p : Nat) : Roots where
  bundles := []
  outOfMemoryError := p
  liveThreads := []
  isObject := fun _ => false

private def finalNodes (objects : List Nat) : Finals where
  hasFinal := []
  doFinal := objects.map fun object => ⟨object + 48, object, 0⟩

private theorem mem_threeObjects {stackSize p : Nat} (member : p ∈ [16, 32, 48]) :
    p ∈ (threeObjects stackSize).objects (fun _ => 0) (fun _ => []) :=
  member

private theorem threeObjects_wellFormed (stackSize : Nat) :
    (threeObjects stackSize).WellFormed (fun _ => 0) (fun _ => []) where
  scannable := by
    refine ⟨by simp [threeObjects, Heap.usedBlocks], ?_, ?_⟩
    · simp [threeObjects, Heap.scan, Heap.usedBlocks, gcHead]
    · intro p _
      rfl
  edges := by
    intro p _ q edge
    simp only [threeObjects] at edge
    split at edge
    · rw [List.mem_singleton.mp edge]
      exact .inr (.inl (mem_threeObjects (by decide)))
    · simp at edge

private theorem threeObjects_exact {stackSize : Nat} (root : Nat)
    (objects : List Nat) (exact : ExactAtSize stackSize)
    (isRoot : root ∈ [0, 16])
    (included : ∀ p ∈ objects, p ∈ [16, 32, 48]) :
    MarksExactly (threeObjects stackSize) (errorRoot root) (finalNodes objects)
      128 (fun _ => 0) (fun _ => []) := by
  refine exact _ _ _ 128 _ _ rfl (threeObjects_wellFormed stackSize) ?_ ?_
  · intro q member
    have same : q = root := by simpa [Roots.pointers, errorRoot] using member
    rw [same]
    rcases List.mem_pair.mp isRoot with rfl | rfl
    · exact .inl rfl
    · exact .inr (.inl (mem_threeObjects (by decide)))
  · intro node member
    simp only [finalNodes, List.nil_append, List.mem_map] at member
    obtain ⟨p, hp, rfl⟩ := member
    exact .inr (.inl (mem_threeObjects (included p hp)))

theorem markPhase_marks_exactly_reachable_initial :
    MarksExactly (threeObjects (256 * 1024)) (errorRoot 16) (finalNodes [48]) 128
      (fun _ => 0) (fun _ => []) :=
  threeObjects_exact 16 [48]
    (markPhase_marks_exactly_reachable (256 * 1024) (by decide) (by decide))
    (by decide) (by decide)

private theorem not_exact_of_none {stackSize : Nat}
    (fails : ∀ fuel, markPhase (threeObjects stackSize) (errorRoot 0)
      (finalNodes [16, 32, 48]) 128 fuel (fun _ => 0) = none) :
    ¬ ExactAtSize stackSize := by
  intro exact
  obtain ⟨enough, returns⟩ :=
    threeObjects_exact 0 [16, 32, 48] exact (by decide) (by decide)
  obtain ⟨marker, lists, returned, _⟩ := returns enough (Nat.le_refl _)
  rw [fails enough] at returned
  contradiction

/-- An empty stack forgets the overflow of the roots; a stack of one or two
entries is written past its end when collecting gives up. -/
theorem markPhase_not_exact_below_three :
    ¬ ExactAtSize 0 ∧ ¬ ExactAtSize 1 ∧ ¬ ExactAtSize 2 := by
  refine ⟨?_, not_exact_of_none ?_, not_exact_of_none ?_⟩
  · intro exact
    obtain ⟨enough, returns⟩ :=
      threeObjects_exact 16 [] exact (by decide) (by simp)
    obtain ⟨marker, lists, returned, exactly⟩ :=
      returns (enough + 1) (Nat.le_succ _)
    have unmarked : marker.isMarked 32 = false := by
      cases returned
      rfl
    have root : 16 ∈ (errorRoot 16).pointers (threeObjects 0) := by decide
    have edge : 32 ∈ (threeObjects 0).walk 16 := by decide
    have reached := (exactly 32 (mem_threeObjects (by decide))).mpr
      (.walk (.root (List.mem_append_left _ root) (mem_threeObjects (by decide)))
        edge (mem_threeObjects (by decide)))
    rw [unmarked] at reached
    contradiction
  · intro fuel
    cases fuel with
    | zero => rfl
    | succ fuel => rfl
  · intro fuel
    cases fuel with
    | zero => rfl
    | succ fuel => rfl

end LaTTe.Gc
