import LaTTe.Gc.Mark.Gathering

namespace LaTTe.Gc

open LaTTe.Data

/-! Marking from a mark stack that may overflow.  The invariant is the one of a marker with a
gray set: a marked object is pending or all its references are marked, unless
an overflow has been recorded, in which case the rescan restores it. -/

/-- The object graph seen by the marker; `reach` is closed under walking. -/
structure Graph (heap : Heap) (memory : Memory) (objects : List Nat)
    (reach : Nat → Prop) : Prop where
  room : ∀ p ∈ objects, gcHead ≤ p
  unmarked : ∀ p ∈ objects, hasFlag (memory (header p)) .mark = false
  edges : ∀ p ∈ objects, ∀ q ∈ heap.walk p, Markable memory objects q
  reach_walk : ∀ p ∈ objects, reach p →
    ∀ q ∈ heap.walk p, q ∈ objects → reach q

def Closed (heap : Heap) (marker : Marker) (p : Nat) : Prop :=
  ∀ q ∈ heap.walk p, q = 0 ∨ marker.isMarked q = true

def Covered (heap : Heap) (objects : List Nat) (marker : Marker)
    (pending : List Nat) : Prop :=
  marker.state ≠ .overflow → ∀ p ∈ objects, marker.isMarked p = true →
    p ∈ pending ∨ Closed heap marker p

section

variable {heap : Heap} {memory : Memory} {objects : List Nat}
  {reach : Nat → Prop} {marker before after : Marker}
  {pushed pending others : List Nat}

theorem Grows.closed (grows : Grows heap objects before pushed after) {p : Nat}
    (closed : Closed heap before p) : Closed heap after p := by
  intro q hq
  rcases closed q hq with zero | marked
  · exact .inl zero
  · exact .inr (grows.keeps q marked)

theorem Grows.covered (grows : Grows heap objects before pushed after)
    (covered : Covered heap objects before pending) :
    Covered heap objects after (pending ++ pushed) := by
  intro quiet p member marked
  have quietBefore : before.state ≠ .overflow :=
    fun overflow => quiet (grows.stays overflow)
  rcases grows.fresh p member marked with marked | fresh | overflow
  · rcases covered quietBefore p member marked with waiting | closed
    · exact .inl (by simp [waiting])
    · exact .inr (grows.closed closed)
  · exact .inl (by simp [fresh])
  · contradiction

theorem Covered.mono (covered : Covered heap objects marker pending)
    (included : ∀ p ∈ pending, p ∈ others ∨ Closed heap marker p ∨
      marker.isMarked p = false) :
    Covered heap objects marker others := by
  intro quiet p member marked
  rcases covered quiet p member marked with waiting | closed
  · rcases included p waiting with kept | closed | unmarked
    · exact .inl kept
    · exact .inr closed
    · rw [unmarked] at marked
      contradiction
  · exact .inr closed

theorem markAll_spec (graph : Graph heap memory objects reach)
    (pointers : List Nat)
    (consistent : Consistent heap memory objects reach marker)
    (markable : ∀ q ∈ pointers, Markable memory objects q)
    (reached : ∀ q ∈ pointers, q ∈ objects → reach q) :
    ∃ next pushed, pointers.foldlM (mark heap) marker = some next ∧
      Consistent heap memory objects reach next ∧
      Grows heap objects marker pushed next ∧
      ∀ q ∈ pointers, q = 0 ∨ next.isMarked q = true := by
  induction pointers generalizing marker with
  | nil => exact ⟨marker, [], rfl, consistent, .refl marker, by simp⟩
  | cons p rest ih =>
      obtain ⟨middle, left, hmark, keeps, first, done⟩ := mark_spec consistent
        graph.room (markable p (by simp)) (reached p (by simp))
      obtain ⟨next, right, hrest, final, second, others⟩ := ih keeps
        (fun q hq => markable q (by simp [hq]))
        (fun q hq => reached q (by simp [hq]))
      refine ⟨next, left ++ right, by simp [hmark, hrest], final,
        first.trans second, ?_⟩
      intro q hq
      rcases List.mem_cons.mp hq with rfl | hq
      · rcases done with zero | marked
        · exact .inl zero
        · exact .inr (second.keeps q marked)
      · exact others q hq

theorem walk_spec (graph : Graph heap memory objects reach)
    (consistent : Consistent heap memory objects reach marker) {p : Nat}
    (member : p ∈ objects) (reached : reach p) :
    ∃ next pushed, walk heap marker p = some next ∧
      Consistent heap memory objects reach next ∧
      Grows heap objects marker pushed next ∧ Closed heap next p :=
  markAll_spec graph _ consistent (graph.edges p member)
    (graph.reach_walk p member reached)

structure Progress (objects : List Nat) (before after : Marker) : Prop where
  keeps : ∀ p, before.isMarked p = true → after.isMarked p = true
  fewer : unmarkedCount objects after ≤ unmarkedCount objects before
  overflow : after.state = .overflow → before.state = .overflow ∨
    unmarkedCount objects after < unmarkedCount objects before

theorem Progress.refl (marker : Marker) : Progress objects marker marker :=
  ⟨fun _ marked => marked, Nat.le_refl _, .inl⟩

theorem Progress.trans {middle : Marker}
    (first : Progress objects before middle)
    (second : Progress objects middle after) :
    Progress objects before after := by
  refine ⟨fun p marked => second.keeps p (first.keeps p marked),
    Nat.le_trans second.fewer first.fewer, ?_⟩
  intro overflow
  have fewerFirst := first.fewer
  have fewerSecond := second.fewer
  rcases second.overflow overflow with overflow | fewer
  · rcases first.overflow overflow with overflow | fewer
    · exact .inl overflow
    · exact .inr (by omega)
  · exact .inr (by omega)

theorem Grows.progress (grows : Grows heap objects before pushed after) :
    Progress objects before after := by
  have spends := grows.spends
  refine ⟨grows.keeps, by omega, ?_⟩
  intro overflow
  rcases grows.overflow overflow with overflow | ⟨fewer, _⟩
  · exact .inl overflow
  · exact .inr fewer

theorem Consistent.pop
    (consistent : Consistent heap memory objects reach marker)
    (settled : marker.state ≠ .collect) :
    Consistent heap memory objects reach
      { marker with stack := marker.stack.dropLast } where
  memory_eq := consistent.memory_eq
  entries := fun p hp => consistent.entries p ((List.dropLast_sublist _).subset hp)
  fits := by
    have := consistent.fits
    simp only [List.length_dropLast]
    omega
  collecting := fun collecting => absurd collecting settled
  settled := consistent.settled

theorem drainLoop_spec (graph : Graph heap memory objects reach)
    (consistent : Consistent heap memory objects reach marker)
    (settled : marker.state ≠ .collect)
    (covered : Covered heap objects marker marker.stack) (fuel : Nat)
    (enough : unmarkedCount objects marker + marker.stack.length ≤ fuel) :
    ∃ next, drainLoop heap fuel marker = some next ∧
      Consistent heap memory objects reach next ∧ next.state ≠ .collect ∧
      next.stack = [] ∧ Covered heap objects next [] ∧
      Progress objects marker next := by
  have run := whileLoop_total
    (fun marker : Marker => !marker.stack.isEmpty)
    (fun marker => do
      let p ← marker.stack.getLast?
      walk heap { marker with stack := marker.stack.dropLast } p)
    (fun next => Consistent heap memory objects reach next ∧
      next.state ≠ .collect ∧ Covered heap objects next next.stack ∧
      Progress objects marker next)
    (fun next => unmarkedCount objects next + next.stack.length)
    ?_ enough ⟨consistent, settled, covered, .refl marker⟩
  · obtain ⟨next, hrun, ⟨keeps, state, covers, progress⟩, stop⟩ := run
    have empty : next.stack = [] := by simpa using stop
    rw [empty] at covers
    exact ⟨next, hrun, keeps, state, empty, covers, progress⟩
  · rintro current ⟨keeps, state, covers, progress⟩ nonempty
    have nonempty : current.stack ≠ [] := by simpa using nonempty
    let p := current.stack.getLast nonempty
    have last : current.stack.getLast? = some p :=
      List.getLast?_eq_some_getLast nonempty
    have split : current.stack.dropLast ++ [p] = current.stack :=
      List.dropLast_append_getLast nonempty
    obtain ⟨member, reached⟩ := keeps.entries p (List.getLast_mem nonempty)
    obtain ⟨next, pushed, hwalk, final, grows, closed⟩ :=
      walk_spec graph (keeps.pop state) member reached
    have popped : Covered heap objects
        { current with stack := current.stack.dropLast } current.stack := covers
    refine ⟨next, by simp [last, hwalk], ⟨final, ?_, ?_, ?_⟩, ?_⟩
    · exact fun collecting => state (grows.collecting collecting).1
    · apply (grows.covered popped).mono
      intro q hq
      rw [← split] at hq
      rw [grows.stack_eq]
      simp only [List.mem_append, List.mem_singleton] at hq ⊢
      rcases hq with (hq | rfl) | hq
      · exact .inl (.inl hq)
      · exact .inr (.inl closed)
      · exact .inl (.inr hq)
    · have shrunk : Progress objects current
          { current with stack := current.stack.dropLast } :=
        ⟨fun _ marked => marked, Nat.le_refl _, .inl⟩
      exact progress.trans (shrunk.trans grows.progress)
    · have spends := grows.spends
      have shorter := congrArg List.length split
      have longer := congrArg List.length grows.stack_eq
      simp only [List.length_append, List.length_singleton] at shorter longer
      change unmarkedCount objects next + pushed.length ≤
        unmarkedCount objects current at spends
      omega

def window (marker : Marker) : List Nat :=
  if marker.state = .collect then
    marker.stack.drop marker.cursor
  else
    marker.stack.drop marker.saveCursor

private theorem Grows.window_covered
    (grows : Grows heap objects before pushed after)
    (covered : Covered heap objects before (window before))
    (cursorLt : before.cursor < before.stack.length)
    (savedLe : before.state ≠ .collect →
      before.saveCursor ≤ before.stack.length)
    (closed : Closed heap after before.stack[before.cursor]) :
    Covered heap objects { after with cursor := after.cursor + 1 }
      (window { after with cursor := after.cursor + 1 }) := by
  have grown : Covered heap objects { after with cursor := after.cursor + 1 }
      (window before ++ pushed) := grows.covered covered
  have stack_eq := grows.stack_eq
  by_cases collecting : after.state = .collect
  · obtain ⟨start, same⟩ := grows.collecting collecting
    apply grown.mono
    intro q hq
    have unfolded : window before ++ pushed =
        before.stack[before.cursor] :: after.stack.drop (before.cursor + 1) := by
      rw [window, if_pos start, stack_eq, List.drop_append_of_le_length (by omega),
        List.drop_eq_getElem_cons cursorLt]
      rfl
    rw [unfolded] at hq
    rcases List.mem_cons.mp hq with rfl | hq
    · exact .inr (.inl closed)
    · left
      simp only [window, collecting, same]
      exact hq
  · have saved : after.saveCursor ≤ before.stack.length ∧
        window before = before.stack.drop after.saveCursor := by
      by_cases start : before.state = .collect
      · obtain ⟨saved, _⟩ := grows.leaves start collecting
        rw [window, if_pos start, saved]
        exact ⟨Nat.le_of_lt cursorLt, rfl⟩
      · obtain ⟨saved, _⟩ := grows.settled start
        rw [window, if_neg start, saved]
        exact ⟨savedLe start, rfl⟩
    apply grown.mono
    intro q hq
    left
    rw [window, if_neg (by exact collecting)]
    change q ∈ after.stack.drop after.saveCursor
    rwa [stack_eq, List.drop_append_of_le_length saved.1, ← saved.2]

theorem Consistent.advance {before after : Marker}
    (consistent : Consistent heap memory objects reach after)
    (grows : Grows heap objects before pushed after)
    (below : before.cursor < before.stack.length) :
    Consistent heap memory objects reach { after with cursor := after.cursor + 1 } := by
  refine ⟨consistent.memory_eq, consistent.entries, consistent.fits, ?_, consistent.settled⟩
  intro still
  obtain ⟨length, limit, _⟩ := consistent.collecting still
  have same := (grows.collecting still).2
  have longer := congrArg List.length grows.stack_eq
  rw [List.length_append] at longer
  refine ⟨length, limit, ?_⟩
  change after.cursor + 1 ≤ after.stack.length
  omega

theorem collectLoop_spec (graph : Graph heap memory objects reach)
    (consistent : Consistent heap memory objects reach marker)
    (collecting : marker.state = .collect)
    (covered : Covered heap objects marker (marker.stack.drop marker.cursor))
    (fuel : Nat)
    (enough : unmarkedCount objects marker + marker.stack.length ≤ fuel) :
    ∃ next, collectLoop heap fuel marker = some next ∧
      Consistent heap memory objects reach next ∧
      Progress objects marker next ∧
      (next.state = .collect → next.cursor = next.stack.length) ∧
      Covered heap objects next (window next) := by
  have run := whileLoop_total
    (fun marker : Marker => decide (marker.cursor < marker.stack.length))
    (fun marker => do
      let p ← marker.stack[marker.cursor]?
      let marker ← walk heap marker p
      some { marker with cursor := marker.cursor + 1 })
    (fun next => Consistent heap memory objects reach next ∧
      Covered heap objects next (window next) ∧
      (next.state ≠ .collect → next.saveCursor ≤ next.stack.length) ∧
      Progress objects marker next)
    (fun next =>
      unmarkedCount objects next + (next.stack.length - next.cursor))
    ?_ (Nat.le_trans (by omega) enough)
    ⟨consistent, by simpa [window, collecting] using covered,
      fun h => absurd collecting h, .refl marker⟩
  · obtain ⟨next, hrun, ⟨keeps, covers, _, progress⟩, stop⟩ := run
    refine ⟨next, hrun, keeps, progress, ?_, covers⟩
    intro still
    have := (keeps.collecting still).2.2
    have : ¬ next.cursor < next.stack.length := by simpa using stop
    omega
  · rintro current ⟨keeps, covers, savedLe, progress⟩ below
    have cursorLt : current.cursor < current.stack.length := by simpa using below
    have read : current.stack[current.cursor]? =
        some current.stack[current.cursor] :=
      List.getElem?_eq_getElem cursorLt
    obtain ⟨member, reached⟩ := keeps.entries _ (List.getElem_mem cursorLt)
    obtain ⟨next, pushed, hwalk, final, grows, closed⟩ :=
      walk_spec graph keeps member reached
    have longer := congrArg List.length grows.stack_eq
    rw [List.length_append] at longer
    have ahead : current.cursor ≤ next.cursor := by
      by_cases start : current.state = .collect
      · by_cases still : next.state = .collect
        · exact Nat.le_of_eq (grows.collecting still).2.symm
        · exact (grows.leaves start still).2
      · exact Nat.le_of_eq (grows.settled start).2.symm
    refine ⟨{ next with cursor := next.cursor + 1 }, by simp [read, hwalk],
      ⟨final.advance grows cursorLt, grows.window_covered covers cursorLt savedLe closed, ?_,
        ?_⟩, ?_⟩
    · intro left
      change next.saveCursor ≤ next.stack.length
      by_cases start : current.state = .collect
      · have := (grows.leaves start left).1
        omega
      · have := (grows.settled start).1
        have := savedLe start
        omega
    · exact progress.trans (grows.progress.trans
        ⟨fun _ marked => marked, Nat.le_refl _, .inl⟩)
    · have spends := grows.spends
      change unmarkedCount objects next + (next.stack.length - (next.cursor + 1)) <
        unmarkedCount objects current + (current.stack.length - current.cursor)
      omega

theorem walk_gathering (graph : Graph heap memory objects reach)
    (consistent : Consistent heap memory objects reach marker) {p limit : Nat}
    (member : p ∈ objects) (reached : reach p)
    (gathering : Gathering objects .collect limit marker)
    (run : walk heap marker p = some after) : Gathering objects .collect limit after :=
  (markAll_gathering graph.room _ consistent (graph.edges p member)
    (graph.reach_walk p member reached) (by simp) gathering run).2

theorem collectLoop_gathering (graph : Graph heap memory objects reach)
    (consistent : Consistent heap memory objects reach marker) {fuel limit : Nat}
    (gathering : Gathering objects .collect limit marker)
    (run : collectLoop heap fuel marker = some after) :
    Gathering objects .collect limit after := by
  have kept := whileLoop_run
    (fun marker => Consistent heap memory objects reach marker ∧
      Gathering objects .collect limit marker) ?_ ⟨consistent, gathering⟩ run
  · exact kept.1.2
  · rintro current next ⟨keeps, gathered⟩ below step
    have cursorLt : current.cursor < current.stack.length := by simpa using below
    obtain ⟨member, reached⟩ := keeps.entries _ (List.getElem_mem cursorLt)
    obtain ⟨walked, pushed, hwalk, final, grows, _⟩ := walk_spec graph keeps member reached
    have advanced : { walked with cursor := walked.cursor + 1 } = next := by
      simpa [List.getElem?_eq_getElem cursorLt, hwalk] using step
    rw [← advanced]
    have gathers := walk_gathering graph keeps member reached gathered hwalk
    exact ⟨final.advance grows cursorLt, gathers.bounded, gathers.distinct, gathers.listed,
      gathers.beyond, gathers.never⟩

/-- The objects `handle_stack_overflow` comes by, in order. -/
def Heap.usedBlocks (heap : Heap) : List Nat :=
  heap.smallRegions.flatMap fun region =>
    region.blocks.filter fun block => region.blockUsed (region.blockPos block)

def Heap.scan (heap : Heap) (layout : Nat → List Nat) : List Nat :=
  heap.largeObjects.flatten ++
    heap.usedBlocks.flatMap fun block => (layout block).map (· + gcHead)

/-- What the rescan relies on: used blocks are cut into headers, and nothing it
comes by was marked before the phase. -/
structure Scannable (heap : Heap) (memory : Memory) (layout : Nat → List Nat) :
    Prop where
  tiled : ∀ block ∈ heap.usedBlocks, BlockTiled memory block (layout block)
  room : ∀ p ∈ heap.scan layout, gcHead ≤ p
  unmarked : ∀ p ∈ heap.scan layout, hasFlag (memory (header p)) .mark = false

theorem Consistent.object_of_isMarked {layout : Nat → List Nat}
    (scannable : Scannable heap memory layout)
    (graph : Graph heap memory objects reach)
    (consistent : Consistent heap memory objects reach marker) {p : Nat}
    (scanned : p ∈ heap.scan layout) (marked : marker.isMarked p = true) :
    p ∈ objects ∧ reach p := by
  rcases consistent.memory_eq (header p) with same | ⟨q, hq, reached, same, _⟩
  · rw [Marker.isMarked, same, scannable.unmarked p scanned] at marked
    contradiction
  · have equal := header_injective (graph.room q hq) (scannable.room p scanned) same
    rw [← equal]
    exact ⟨hq, reached⟩

def Rescanning (heap : Heap) (memory : Memory) (objects : List Nat)
    (reach : Nat → Prop) (layout : Nat → List Nat) (start : Marker)
    (rest : List Nat) (marker : Marker) : Prop :=
  Consistent heap memory objects reach marker ∧
    (∀ p ∈ rest, p ∈ heap.scan layout) ∧ marker.state ≠ .collect ∧
    Covered heap objects marker (marker.stack ++ rest) ∧
    Progress objects start marker

theorem walkMarked_rescanning {layout : Nat → List Nat} {start : Marker}
    (scannable : Scannable heap memory layout)
    (graph : Graph heap memory objects reach) {p : Nat} {rest : List Nat}
    (holds : Rescanning heap memory objects reach layout start (p :: rest) marker) :
    ∃ next, walkMarked heap marker p = some next ∧
      Rescanning heap memory objects reach layout start rest next := by
  obtain ⟨consistent, ahead, settled, covered, progress⟩ := holds
  have aheadRest : ∀ q ∈ rest, q ∈ heap.scan layout :=
    fun q hq => ahead q (by simp [hq])
  cases marked : marker.isMarked p with
  | false =>
      refine ⟨marker, by simp [walkMarked, marked], consistent, aheadRest,
        settled, ?_, progress⟩
      apply covered.mono
      intro q hq
      simp only [List.mem_append, List.mem_cons] at hq ⊢
      rcases hq with hq | rfl | hq
      · exact .inl (.inl hq)
      · exact .inr (.inr marked)
      · exact .inl (.inr hq)
  | true =>
      obtain ⟨member, reached⟩ :=
        consistent.object_of_isMarked scannable graph (ahead p (by simp)) marked
      obtain ⟨next, pushed, hwalk, final, grows, closed⟩ :=
        walk_spec graph consistent member reached
      refine ⟨next, by simp [walkMarked, marked, hwalk], final, aheadRest,
        fun collecting => settled (grows.collecting collecting).1, ?_,
        progress.trans grows.progress⟩
      apply (grows.covered covered).mono
      intro q hq
      rw [grows.stack_eq]
      simp only [List.mem_append, List.mem_cons] at hq ⊢
      rcases hq with (hq | rfl | hq) | hq
      · exact .inl (.inl (.inl hq))
      · exact .inr (.inl closed)
      · exact .inl (.inr hq)
      · exact .inl (.inl (.inr hq))

section

variable {layout : Nat → List Nat} {start : Marker}

private theorem walkMarked_traverses (scannable : Scannable heap memory layout)
    (graph : Graph heap memory objects reach) (p : Nat) :
    Traverses (Rescanning heap memory objects reach layout start)
      (fun marker => walkMarked heap marker p) [p] :=
  fun _ _ holds => walkMarked_rescanning scannable graph holds

private theorem walkLargeObjects_traverses
    (scannable : Scannable heap memory layout)
    (graph : Graph heap memory objects reach) :
    Traverses (Rescanning heap memory objects reach layout start)
      (walkLargeObjects heap) heap.largeObjects.flatten := by
  rw [← List.flatMap_id]
  apply Traverses.foldlM
  intro chain _
  have visits : Traverses (Rescanning heap memory objects reach layout start)
      (fun marker => chain.foldlM (walkMarked heap) marker)
      (chain.flatMap fun p => [p]) :=
    .foldlM _ _ _ (fun p _ => walkMarked_traverses scannable graph p)
  simpa using visits

private theorem walkSmallBlock_traverses
    (scannable : Scannable heap memory layout)
    (graph : Graph heap memory objects reach)
    {bound head fuel : Nat} {headers : List Nat}
    (tiled : Tiles (headerSize memory) head headers bound)
    (enough : headers.length < fuel) :
    Traverses (Rescanning heap memory objects reach layout start)
      (walkSmallBlock heap bound fuel head) (headers.map (· + gcHead)) := by
  induction headers generalizing head fuel with
  | nil =>
      cases fuel with
      | zero => simp at enough
      | succ fuel =>
          obtain rfl : head = bound := tiled
          intro rest marker holds
          exact ⟨marker, by simp [walkSmallBlock], holds⟩
  | cons tile rest ih =>
      cases fuel with
      | zero => simp at enough
      | succ fuel =>
          obtain ⟨rfl, positive, after⟩ := tiled
          have below : tile < bound := by
            have := after.le
            omega
          intro items marker holds
          have consistent := holds.1
          obtain ⟨middle, visit, kept⟩ :=
            walkMarked_rescanning scannable graph holds
          obtain ⟨next, run, final⟩ :=
            ih after (by simpa using enough) items middle kept
          refine ⟨next, ?_, final⟩
          rw [walkSmallBlock, if_pos below, visit,
            consistent.headerSize_eq tile]
          exact run

private theorem flatMap_filter_eq (blocks : List Nat) (keep : Nat → Bool)
    (items : Nat → List Nat) :
    (blocks.filter keep).flatMap items =
      blocks.flatMap fun block => if keep block then items block else [] := by
  induction blocks with
  | nil => rfl
  | cons block rest ih =>
      cases kept : keep block <;> simp [kept, ih]

private theorem walkSmallObjects_traverses
    (scannable : Scannable heap memory layout)
    (graph : Graph heap memory objects reach) :
    Traverses (Rescanning heap memory objects reach layout start)
      (walkSmallObjects heap)
      (heap.usedBlocks.flatMap fun block => (layout block).map (· + gcHead)) := by
  unfold Heap.usedBlocks
  rw [List.flatMap_assoc]
  apply Traverses.foldlM
  intro region hregion
  rw [flatMap_filter_eq]
  apply Traverses.foldlM
  · intro block hblock
    cases used : region.blockUsed (region.blockPos block) with
    | false => exact Traverses.nil
    | true =>
        have inUse : block ∈ heap.usedBlocks := by
          simp only [Heap.usedBlocks, List.mem_flatMap, List.mem_filter]
          exact ⟨region, hregion, hblock, used⟩
        have tiled := scannable.tiled block inUse
        apply walkSmallBlock_traverses scannable graph tiled
        have := tiled.length_le
        unfold firstHeader blockBound gcBlockSize gcHead memAlign at *
        omega

theorem handleStackOverflow_spec (scannable : Scannable heap memory layout)
    (graph : Graph heap memory objects reach)
    (included : ∀ p ∈ objects, p ∈ heap.scan layout)
    (consistent : Consistent heap memory objects reach marker)
    (settled : marker.state ≠ .collect) :
    ∃ next, handleStackOverflow heap marker = some next ∧
      Consistent heap memory objects reach next ∧ next.state ≠ .collect ∧
      Covered heap objects next next.stack ∧ Progress objects marker next := by
  have covered : Covered heap objects marker
      (marker.stack ++ heap.scan layout) := by
    intro _ p member _
    exact .inl (by simp [included p member])
  have large : Traverses (Rescanning heap memory objects reach layout marker)
      (walkLargeObjects heap) heap.largeObjects.flatten :=
    walkLargeObjects_traverses scannable graph
  have traverses := large.bind (walkSmallObjects_traverses scannable graph)
  obtain ⟨next, run, final, _, state, covers, progress⟩ :=
    traverses [] marker ⟨consistent, by simp [Heap.scan], settled,
      by simpa [Heap.scan] using covered, .refl marker⟩
  exact ⟨next, run, final, state, by simpa using covers, progress⟩

end

def Ready (heap : Heap) (objects : List Nat) (marker : Marker) : Prop :=
  Covered heap objects marker
    (if marker.state = .collect then
      marker.stack.drop marker.cursor
    else
      marker.stack)

structure Finished (heap : Heap) (objects : List Nat) (marker : Marker) :
    Prop where
  quiet : marker.state ≠ .overflow
  closed : Covered heap objects marker []
  collected : marker.state = .collect → marker.cursor = marker.stack.length

section

variable {layout : Nat → List Nat}

section

variable (scannable : Scannable heap memory layout) (graph : Graph heap memory objects reach)
  (included : ∀ p ∈ objects, p ∈ heap.scan layout)

include scannable graph included

theorem rescanLoop_spec (fuel rounds : Nat) (enough : objects.length + heap.stackSize ≤ fuel)
    (consistent : Consistent heap memory objects reach marker)
    (settled : marker.state ≠ .collect)
    (covered : Covered heap objects marker marker.stack)
    (paid : 2 * unmarkedCount objects marker +
      (if marker.state = .overflow then 1 else 0) < rounds) :
    ∃ next, rescanLoop heap fuel rounds marker = some next ∧
      Consistent heap memory objects reach next ∧
      Finished heap objects next ∧ next.state ≠ .collect ∧
      ∀ p, marker.isMarked p = true → next.isMarked p = true := by
  induction rounds generalizing marker with
  | zero => omega
  | succ rounds ih =>
      have bounded : unmarkedCount objects marker ≤ objects.length :=
        List.countP_le_length
      have fits := consistent.fits
      obtain ⟨drained, hdrain, keeps, state, empty, covers, progress⟩ :=
        drainLoop_spec graph consistent settled covered fuel
          (by omega)
      by_cases overflow : drained.state = .overflow
      · have restart : Consistent heap memory objects reach
            { drained with state := .normal } :=
          ⟨keeps.memory_eq, keeps.entries, keeps.fits,
            fun h => by simp at h, fun _ => keeps.settled state⟩
        obtain ⟨rescanned, hrescan, keepsAgain, stateAgain, coversAgain, again⟩ :=
          handleStackOverflow_spec scannable graph included restart (by simp)
        -- an overflow costs a mark, so every further round has fewer objects left
        have fewer : 2 * unmarkedCount objects rescanned +
            (if rescanned.state = .overflow then 1 else 0) < rounds := by
          have first := progress.fewer
          have second := again.fewer
          change unmarkedCount objects rescanned ≤
            unmarkedCount objects drained at second
          have third : rescanned.state = .overflow →
              unmarkedCount objects rescanned < unmarkedCount objects drained := by
            intro more
            rcases again.overflow more with h | h
            · simp at h
            · exact h
          have fourth := progress.overflow overflow
          split at paid <;> split <;> simp_all <;> omega
        obtain ⟨next, hrest, final, finished, left, marks⟩ :=
          ih keepsAgain stateAgain coversAgain fewer
        refine ⟨next, ?_, final, finished, left, ?_⟩
        · simp [rescanLoop, hdrain, overflow, hrescan, hrest]
        · exact fun p marked =>
            marks p (again.keeps p (progress.keeps p marked))
      · refine ⟨drained, ?_, keeps, ⟨overflow, covers, fun h => absurd h state⟩,
          state, progress.keeps⟩
        simp [rescanLoop, hdrain, overflow]

theorem rescanLoop_moved {fuel : Nat} (enough : 2 * objects.length + heap.stackSize + 2 ≤ fuel)
    (consistent : Consistent heap memory objects reach marker)
    (left : marker.state ≠ .collect)
    (covered : Covered heap objects marker (window marker)) :
    ∃ next, rescanLoop heap fuel fuel
        { marker with stack := marker.stack.drop marker.saveCursor } = some next ∧
      Consistent heap memory objects reach next ∧
      Finished heap objects next ∧ next.state ≠ .collect ∧
      ∀ p, marker.isMarked p = true → next.isMarked p = true := by
  have moved : Consistent heap memory objects reach
      { marker with stack := marker.stack.drop marker.saveCursor } := by
    refine ⟨consistent.memory_eq, ?_, ?_, fun h => absurd h left, consistent.settled⟩
    · exact fun p hp => consistent.entries p (List.mem_of_mem_drop hp)
    · have := consistent.fits
      simp only [List.length_drop]
      omega
  rw [window, if_neg left] at covered
  apply rescanLoop_spec scannable graph included fuel fuel (by omega) moved left covered
  have : unmarkedCount objects { marker with stack := marker.stack.drop marker.saveCursor } ≤
      objects.length := List.countP_le_length
  split <;> omega

theorem walkMarkStack_spec {fuel : Nat} (enough : 2 * objects.length + heap.stackSize + 2 ≤ fuel)
    (consistent : Consistent heap memory objects reach marker)
    (ready : Ready heap objects marker) :
    ∃ next, walkMarkStack heap fuel marker = some next ∧
      Consistent heap memory objects reach next ∧
      Finished heap objects next ∧
      (∀ p, marker.isMarked p = true → next.isMarked p = true) ∧
      (marker.state ≠ .collect → next.state ≠ .collect) ∧
      ∀ limit, Gathering objects .collect limit marker →
        Gathering objects .collect limit next := by
  have paid : ∀ marker : Marker, 2 * unmarkedCount objects marker +
      (if marker.state = .overflow then 1 else 0) < fuel := by
    intro marker
    have : unmarkedCount objects marker ≤ objects.length :=
      List.countP_le_length
    split <;> omega
  by_cases collecting : marker.state = .collect
  · rw [Ready, if_pos collecting] at ready
    have bounded : unmarkedCount objects marker ≤ objects.length :=
      List.countP_le_length
    have fits := consistent.fits
    obtain ⟨walked, hcollect, keeps, progress, complete, covers⟩ :=
      collectLoop_spec graph consistent collecting ready fuel (by omega)
    by_cases still : walked.state = .collect
    · refine ⟨walked, by simp [walkMarkStack, collecting, hcollect, still], keeps,
        ⟨by simp [still], ?_, complete⟩, progress.keeps,
        fun left => absurd collecting left, fun limit gathering => collectLoop_gathering graph consistent gathering hcollect⟩
      simpa [window, still, complete still] using covers
    · obtain ⟨next, hrest, final, finished, left, marks⟩ :=
        rescanLoop_moved scannable graph included enough keeps still covers
      refine ⟨next, by simp [walkMarkStack, collecting, hcollect, still, hrest],
        final, finished, ?_, fun _ => left, ?_⟩
      · exact fun p marked => marks p (progress.keeps p marked)
      · intro limit gathering
        have gathered := collectLoop_gathering graph consistent gathering hcollect
        exact gathered.settled still left marks
  · rw [Ready, if_neg collecting] at ready
    obtain ⟨next, hrest, final, finished, left, marks⟩ :=
      rescanLoop_spec scannable graph included fuel fuel
        (by omega) consistent collecting ready (paid _)
    exact ⟨next, by simp [walkMarkStack, collecting, hrest], final, finished,
      marks, fun _ => left, fun limit gathering => gathering.settled collecting left marks⟩

end

end

end

end LaTTe.Gc
