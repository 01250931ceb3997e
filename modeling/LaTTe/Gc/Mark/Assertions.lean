import LaTTe.Data.Discovery
import LaTTe.Gc.Mark.Phase
import LaTTe.Gc.Small.Allocator

namespace LaTTe.Gc

open LaTTe.Data

/-! The mark phase with its assertions. -/

inductive Assertion where
  /-- `mark_state != MARK_STATE_COLLECT` where `mark` records an overflow. -/
  | stateInMark
  /-- `mark_state == MARK_STATE_NORMAL` behind the collecting loop. -/
  | stateAfterCollecting
  /-- `mark_bound == mark_stack + mark_stack_size - 1` behind the collecting loop. -/
  | boundAfterCollecting
  /-- `mark_state == MARK_STATE_NORMAL` where `walk_mark_stack` returns. -/
  | stateAtReturn
  /-- `bound < mark_bound` in `mark_phase`. -/
  | suggestedBound
  /-- `mark_bound < mark_stack + mark_stack_size` in `mark_phase`. -/
  | markBound
  deriving DecidableEq, Repr

/-- The assertions of `mark` and `walk_mark_stack` about the marker's state. -/
def Assertion.OfMarker : Assertion → Prop
  | .suggestedBound => False
  | .markBound => False
  | _ => True

instance (assertion : Assertion) : Decidable assertion.OfMarker := by
  cases assertion <;> unfold Assertion.OfMarker <;> infer_instance

def markAsserted (heap : Heap) (marker : Marker) (p : Nat) :
    Option (Except Assertion Marker) :=
  if p = 0 ∨ marker.isMarked p = true then
    some (.ok marker)
  else
    let marker := setMark marker p
    if marker.stack.length < marker.limit then
      (push heap marker p).map .ok
    else if marker.state = .collect then
      (push heap
        { marker with
          saveCursor := marker.cursor
          cursor := marker.stack.length + 1
          limit := heap.stackSize
          state := .normal } p).map .ok
    else if marker.state ≠ .collect then
      some (.ok { marker with state := .overflow })
    else
      some (.error .stateInMark)

theorem markAsserted_eq (heap : Heap) (marker : Marker) (p : Nat) :
    markAsserted heap marker p = (mark heap marker p).map .ok := by
  unfold markAsserted mark
  split
  · rfl
  · dsimp only
    split
    · rfl
    · unfold markOverflow
      cases state : (setMark marker p).state with
      | collect => rfl
      | normal => rfl
      | overflow => rfl

def rescanLoopAsserted (heap : Heap) (fuel : Nat) :
    Nat → Marker → Option (Except Assertion Marker)
  | 0, _ => none
  | rounds + 1, marker => do
      let marker ← drainLoop heap fuel marker
      if marker.state = .overflow then
        let marker ← handleStackOverflow heap { marker with state := .normal }
        rescanLoopAsserted heap fuel rounds marker
      else if marker.state = .normal then
        some (.ok marker)
      else
        some (.error .stateAtReturn)

def walkMarkStackAsserted (heap : Heap) (fuel : Nat) (marker : Marker) :
    Option (Except Assertion Marker) :=
  if marker.state = .collect then do
    let marker ← collectLoop heap fuel marker
    if marker.state = .collect then
      some (.ok marker)
    else if marker.state ≠ .normal then
      some (.error .stateAfterCollecting)
    else if marker.limit ≠ heap.stackSize then
      some (.error .boundAfterCollecting)
    else
      rescanLoopAsserted heap fuel fuel
        { marker with stack := marker.stack.drop marker.saveCursor }
  else
    rescanLoopAsserted heap fuel fuel marker

def walkFinalsAsserted (heap : Heap) (fuel : Nat) (finals : Finals) (marker : Marker) :
    Option (Except Assertion Marker) := do
  let finals := splitFinals marker.memory finals
  let marker ← finals.doFinal.foldlM
    (fun marker node => mark heap marker node.object) marker
  walkMarkStackAsserted heap fuel marker

def markPhaseAsserted (heap : Heap) (roots : Roots) (finals : Finals)
    (heapSize fuel : Nat) (memory : Memory) : Option (Except Assertion Marker) := do
  let marker ← walkRoots heap roots
    { memory := memory, state := .normal, stack := [], cursor := 0,
      saveCursor := 0, limit := heap.stackSize }
  let bound := markStackSuggestBound heap.stackSize heapSize
  if bound + 1 < heap.stackSize then
    let marker :=
      if marker.stack.length ≤ bound then
        { marker with cursor := 0, limit := bound + 1, state := .collect }
      else
        marker
    if marker.limit ≤ heap.stackSize then
      match ← walkMarkStackAsserted heap fuel marker with
      | .error assertion => some (.error assertion)
      | .ok marker => walkFinalsAsserted heap fuel finals marker
    else
      some (.error .markBound)
  else
    some (.error .suggestedBound)

/-- The objects are numbered as they are found breadth first.  The object whose references
bring their number above `bound` is the last one that is visited in order; then the search
goes on behind the next entry, and finds more objects than the stack has room for. -/
def Flooded (heap : Heap) (objects : List Nat) (bound : Nat) (start : List Nat) : Prop :=
  ∃ n m, (explore heap.walk objects start 0 n).length ≤ bound ∧
    bound < (explore heap.walk objects start 0 (n + 1)).length ∧
    heap.stackSize < (explore heap.walk objects
      (explore heap.walk objects start 0 (n + 1)) (bound + 2) m).length

def rootList (heap : Heap) (roots : Roots) (objects : List Nat) : List Nat :=
  discover objects [] (roots.pointers heap)

def liveList (heap : Heap) (roots : Roots) (objects : List Nat) : List Nat :=
  explore heap.walk objects (rootList heap roots objects) 0 objects.length

def finalList (heap : Heap) (roots : Roots) (finals : Finals) (memory : Memory)
    (objects : List Nat) : List Nat :=
  let live := liveList heap roots objects
  discover objects live
    ((splitFinals (Small.markHeaders memory (live.map header)) finals).doFinal.map (·.object))

/-- Collecting is tried, and given up in the middle of a flood. -/
def GivesUpFlooded (heap : Heap) (roots : Roots) (finals : Finals) (heapSize : Nat)
    (memory : Memory) (objects : List Nat) : Prop :=
  let bound := markStackSuggestBound heap.stackSize heapSize
  bound + 1 < heap.stackSize ∧ (rootList heap roots objects).length ≤ bound ∧
    (Flooded heap objects (bound + 1) (rootList heap roots objects) ∨
      Flooded heap objects (bound + 1) (finalList heap roots finals memory objects))

structure Collecting (objects : List Nat) (bound cursor : Nat) (found : List Nat)
    (marker : Marker) : Prop where
  state : marker.state = .collect
  stack : marker.stack = found
  limit : marker.limit = bound
  cursor : marker.cursor = cursor
  short : found.length ≤ bound
  marked : ∀ p ∈ objects, marker.isMarked p = true ↔ p ∈ found

structure Settled (heap : Heap) (objects found : List Nat) (marker : Marker) : Prop where
  fits : found.length ≤ heap.stackSize → marker.state = .normal ∧ marker.stack = found
  full : heap.stackSize < found.length → marker.state = .overflow
  marked : ∀ p ∈ objects, marker.isMarked p = true ↔ p ∈ found

section

variable {heap : Heap} {memory : Memory} {objects found pointers : List Nat}
  {reach : Nat → Prop} {marker next : Marker} {bound cursor p : Nat}

theorem isMarked_setMark_iff (room : ∀ q ∈ objects, gcHead ≤ q) (member : p ∈ objects)
    (marked : ∀ q ∈ objects, marker.isMarked q = true ↔ q ∈ found) :
    ∀ q ∈ objects, (setMark marker p).isMarked q = true ↔ q ∈ found ++ [p] := by
  intro q inside
  rw [List.mem_append, List.mem_singleton, ← marked q inside]
  constructor
  · exact isMarked_of_isMarked_setMark room member inside
  · rintro (isMarked | rfl)
    · exact isMarked_setMark_of_isMarked marker p isMarked
    · exact isMarked_setMark_self marker q

theorem not_mem_of_unmarked (member : p ∈ objects) (unmarked : marker.isMarked p = false)
    (marked : ∀ q ∈ objects, marker.isMarked q = true ↔ q ∈ found) : p ∉ found := by
  intro inFound
  rw [(marked p member).mpr inFound] at unmarked
  cases unmarked

theorem discover_skipped (room : ∀ q ∈ objects, gcHead ≤ q)
    (done : p = 0 ∨ marker.isMarked p = true)
    (marked : ∀ q ∈ objects, marker.isMarked q = true ↔ q ∈ found) :
    discover objects found [p] = found := by
  apply discover_known
  intro member
  rcases done with rfl | isMarked
  · exact absurd (room 0 member) (by decide)
  · exact (marked p member).mp isMarked

theorem Settled.mark (room : ∀ q ∈ objects, gcHead ≤ q)
    (consistent : Consistent heap memory objects reach marker)
    (markable : Markable memory objects p) (settled : Settled heap objects found marker)
    (step : MarkStep heap marker p next) :
    Settled heap objects (discover objects found [p]) next ∧ next.cursor = marker.cursor := by
  have notCollecting : marker.state ≠ .collect := by
    rcases Nat.lt_or_ge heap.stackSize found.length with full | fits
    · simp [settled.full full]
    · simp [(settled.fits fits).1]
  have limit := consistent.settled notCollecting
  cases step with
  | skip done =>
      rw [discover_skipped room done settled.marked]
      exact ⟨settled, rfl⟩
  | push nonzero unmarked below =>
      have member := consistent.object_of_unmarked markable nonzero unmarked
      rw [discover_fresh member (not_mem_of_unmarked member unmarked settled.marked)]
      refine ⟨⟨fun fits => ?_, fun full => ?_, isMarked_setMark_iff room member settled.marked⟩,
        rfl⟩
      · rw [List.length_append, List.length_singleton] at fits
        obtain ⟨normal, stack⟩ := settled.fits (by omega)
        exact ⟨normal, congrArg (· ++ [p]) stack⟩
      · rw [List.length_append, List.length_singleton] at full
        rcases Nat.lt_or_ge heap.stackSize found.length with already | fits
        · exact settled.full already
        · have stack := (settled.fits fits).2
          rw [stack] at below
          omega
  | giveUp nonzero unmarked full collecting => exact absurd collecting notCollecting
  | overflow nonzero unmarked full =>
      have member := consistent.object_of_unmarked markable nonzero unmarked
      rw [discover_fresh member (not_mem_of_unmarked member unmarked settled.marked)]
      refine ⟨⟨fun fits => ?_, fun _ => rfl, isMarked_setMark_iff room member settled.marked⟩,
        rfl⟩
      rw [List.length_append, List.length_singleton] at fits
      have stack := (settled.fits (by omega)).2
      rw [stack] at full
      omega

theorem Collecting.mark (room : ∀ q ∈ objects, gcHead ≤ q)
    (consistent : Consistent heap memory objects reach marker)
    (markable : Markable memory objects p)
    (collecting : Collecting objects bound cursor found marker)
    (step : MarkStep heap marker p next) :
    (Collecting objects bound cursor (discover objects found [p]) next) ∨
      (bound < (discover objects found [p]).length ∧
        Settled heap objects (discover objects found [p]) next ∧ next.cursor = bound + 1) := by
  have roomy := (consistent.collecting collecting.state).2.1
  have limit := collecting.limit
  have stack := collecting.stack
  have short := collecting.short
  cases step with
  | skip done =>
      rw [discover_skipped room done collecting.marked]
      exact .inl collecting
  | push nonzero unmarked below =>
      have member := consistent.object_of_unmarked markable nonzero unmarked
      rw [discover_fresh member (not_mem_of_unmarked member unmarked collecting.marked)]
      left
      refine ⟨collecting.state, congrArg (· ++ [p]) stack, limit, collecting.cursor, ?_,
        isMarked_setMark_iff room member collecting.marked⟩
      rw [stack, limit] at below
      rw [List.length_append, List.length_singleton]
      omega
  | giveUp nonzero unmarked full =>
      have member := consistent.object_of_unmarked markable nonzero unmarked
      rw [discover_fresh member (not_mem_of_unmarked member unmarked collecting.marked)]
      right
      rw [stack, limit] at full
      rw [List.length_append, List.length_singleton]
      refine ⟨by omega, ⟨fun _ => ⟨rfl, congrArg (· ++ [p]) stack⟩, fun excess => ?_,
        isMarked_setMark_iff room member collecting.marked⟩, ?_⟩
      · rw [List.length_append, List.length_singleton] at excess
        omega
      · dsimp only
        rw [stack]
        omega
  | overflow nonzero unmarked full settled => exact absurd collecting.state settled

theorem Settled.markAll (graph : Graph heap memory objects reach)
    (consistent : Consistent heap memory objects reach marker)
    (markable : ∀ q ∈ pointers, Markable memory objects q)
    (reached : ∀ q ∈ pointers, q ∈ objects → reach q)
    (settled : Settled heap objects found marker)
    (run : pointers.foldlM (Gc.mark heap) marker = some next) :
    Settled heap objects (discover objects found pointers) next ∧
      next.cursor = marker.cursor := by
  induction pointers generalizing marker found with
  | nil =>
      obtain rfl := Option.some.inj run
      exact ⟨settled, rfl⟩
  | cons p rest ih =>
      rw [List.foldlM_cons, Option.bind_eq_bind, Option.bind_eq_some_iff] at run
      obtain ⟨middle, first, run⟩ := run
      obtain ⟨_, _, again, keeps, _⟩ := mark_spec consistent graph.room
        (markable p (by simp)) (reached p (by simp))
      obtain rfl := Option.some.inj (first.symm.trans again)
      obtain ⟨stays, sameCursor⟩ :=
        settled.mark graph.room consistent (markable p (by simp)) (mark_step first)
      rw [discover_cons, ← sameCursor]
      exact ih keeps (fun q member => markable q (by simp [member]))
        (fun q member => reached q (by simp [member])) stays run

theorem Collecting.markAll (graph : Graph heap memory objects reach)
    (consistent : Consistent heap memory objects reach marker)
    (markable : ∀ q ∈ pointers, Markable memory objects q)
    (reached : ∀ q ∈ pointers, q ∈ objects → reach q)
    (collecting : Collecting objects bound cursor found marker)
    (run : pointers.foldlM (Gc.mark heap) marker = some next) :
    (Collecting objects bound cursor (discover objects found pointers) next) ∨
      (bound < (discover objects found pointers).length ∧
        Settled heap objects (discover objects found pointers) next ∧
        next.cursor = bound + 1) := by
  induction pointers generalizing marker found with
  | nil =>
      obtain rfl := Option.some.inj run
      exact .inl collecting
  | cons p rest ih =>
      rw [List.foldlM_cons, Option.bind_eq_bind, Option.bind_eq_some_iff] at run
      obtain ⟨middle, first, run⟩ := run
      obtain ⟨_, _, again, keeps, _⟩ := mark_spec consistent graph.room
        (markable p (by simp)) (reached p (by simp))
      obtain rfl := Option.some.inj (first.symm.trans again)
      have restMarkable : ∀ q ∈ rest, Markable memory objects q :=
        fun q member => markable q (by simp [member])
      have restReached : ∀ q ∈ rest, q ∈ objects → reach q :=
        fun q member => reached q (by simp [member])
      rw [discover_cons]
      rcases collecting.mark graph.room consistent (markable p (by simp)) (mark_step first) with
        still | ⟨many, settled, at_bound⟩
      · exact ih keeps restMarkable restReached still run
      · obtain ⟨stays, sameCursor⟩ := settled.markAll graph keeps restMarkable restReached run
        have longer := (prefix_discover objects (discover objects found [p]) rest).length_le
        exact .inr ⟨by omega, stays, sameCursor.trans at_bound⟩

inductive Stage (heap : Heap) (objects : List Nat) (bound : Nat) (start : List Nat)
    (marker : Marker) : Prop where
  | collecting (n : Nat)
      (holds : Collecting objects bound n (explore heap.walk objects start 0 n) marker)
  | settled (n m : Nat) (few : (explore heap.walk objects start 0 n).length ≤ bound)
      (many : bound < (explore heap.walk objects start 0 (n + 1)).length)
      (fits : (explore heap.walk objects (explore heap.walk objects start 0 (n + 1))
        (bound + 2) m).length ≤ heap.stackSize)
      (holds : Settled heap objects (explore heap.walk objects
        (explore heap.walk objects start 0 (n + 1)) (bound + 2) m) marker)
      (cursor : marker.cursor = bound + 2 + m)
  | overflowed (flooded : Flooded heap objects bound start) (state : marker.state = .overflow)

variable {start : List Nat}

theorem Settled.setCursor (settled : Settled heap objects found marker) (cursor : Nat) :
    Settled heap objects found { marker with cursor := cursor } :=
  ⟨settled.fits, settled.full, settled.marked⟩

theorem Stage.of_settled {n m : Nat}
    (few : (explore heap.walk objects start 0 n).length ≤ bound)
    (many : bound < (explore heap.walk objects start 0 (n + 1)).length)
    (holds : Settled heap objects (explore heap.walk objects
      (explore heap.walk objects start 0 (n + 1)) (bound + 2) m) marker)
    (cursor : marker.cursor = bound + 2 + m) : Stage heap objects bound start marker := by
  rcases Nat.lt_or_ge heap.stackSize (explore heap.walk objects
    (explore heap.walk objects start 0 (n + 1)) (bound + 2) m).length with full | fits
  · exact .overflowed ⟨n, m, few, many, full⟩ (holds.full full)
  · exact .settled n m few many fits holds cursor

theorem Stage.round (graph : Graph heap memory objects reach)
    (consistent : Consistent heap memory objects reach marker)
    (stage : Stage heap objects bound start marker)
    (below : marker.cursor < marker.stack.length)
    (run : Gc.walk heap marker marker.stack[marker.cursor] = some next) :
    Stage heap objects bound start { next with cursor := next.cursor + 1 } := by
  obtain ⟨member, reached⟩ := consistent.entries _ (List.getElem_mem below)
  have markable := graph.edges _ member
  have reaches := graph.reach_walk _ member reached
  have entry : marker.stack[marker.cursor]? = some marker.stack[marker.cursor] :=
    List.getElem?_eq_getElem below
  generalize marker.stack[marker.cursor] = p at *
  cases stage with
  | collecting n holds =>
      rw [holds.stack, holds.cursor] at entry
      have visit : explore heap.walk objects start 0 (n + 1) =
          discover objects (explore heap.walk objects start 0 n) (heap.walk p) :=
        explore_visit (by rwa [Nat.zero_add])
      rcases holds.markAll graph consistent markable reaches run with
        still | ⟨many, settled, at_bound⟩
      · rw [← visit] at still
        exact .collecting (n + 1) ⟨still.state, still.stack, still.limit,
          congrArg (· + 1) still.cursor, still.short, still.marked⟩
      · rw [← visit] at many settled
        exact .of_settled (m := 0) holds.short many (settled.setCursor _)
          (congrArg (· + 1) at_bound)
  | settled n m few many fits holds cursor =>
      rw [(holds.fits fits).2, cursor] at entry
      obtain ⟨settled, sameCursor⟩ := holds.markAll graph consistent markable reaches run
      rw [← explore_visit entry] at settled
      refine .of_settled few many (settled.setCursor _) ?_
      dsimp only
      omega
  | overflowed flooded state =>
      obtain ⟨_, _, again, _, grows, _⟩ := walk_spec graph consistent member reached
      obtain rfl := Option.some.inj (run.symm.trans again)
      exact .overflowed flooded (grows.stays state)

theorem crossing_unique {n k : Nat}
    (few : (explore heap.walk objects start 0 n).length ≤ bound)
    (many : bound < (explore heap.walk objects start 0 (n + 1)).length)
    (few' : (explore heap.walk objects start 0 k).length ≤ bound)
    (many' : bound < (explore heap.walk objects start 0 (k + 1)).length) : n = k := by
  rcases Nat.lt_trichotomy n k with before | same | behind
  · have le : n + 1 ≤ k := before
    have := (prefix_explore heap.walk objects start 0 le).length_le
    omega
  · exact same
  · have le : k + 1 ≤ n := behind
    have := (prefix_explore heap.walk objects start 0 le).length_le
    omega

inductive Ended (heap : Heap) (objects : List Nat) (bound : Nat) (start : List Nat)
    (marker : Marker) : Prop where
  | collecting (n : Nat) (dry : ¬Flooded heap objects bound start)
      (holds : Collecting objects bound n (explore heap.walk objects start 0 n) marker)
      (visited : (explore heap.walk objects start 0 n).length ≤ n)
  | settled (dry : ¬Flooded heap objects bound start) (state : marker.state = .normal)
      (many : ∃ n, bound < (explore heap.walk objects start 0 n).length)
  | overflowed (flooded : Flooded heap objects bound start) (state : marker.state = .overflow)

theorem Stage.ended (stage : Stage heap objects bound start marker)
    (stop : marker.stack.length ≤ marker.cursor) : Ended heap objects bound start marker := by
  cases stage with
  | collecting n holds =>
      rw [holds.stack, holds.cursor] at stop
      refine .collecting n ?_ holds stop
      rintro ⟨k, m, _, many, _⟩
      have visited : (explore heap.walk objects start 0 n).length ≤ 0 + n := by omega
      have longest := explore_length_le visited (k + 1)
      have := holds.short
      omega
  | settled n m few many fits holds cursor =>
      obtain ⟨normal, stack⟩ := holds.fits fits
      rw [stack, cursor] at stop
      refine .settled ?_ normal ⟨n + 1, many⟩
      rintro ⟨k, more, few', many', full⟩
      obtain rfl := crossing_unique few many few' many'
      have longest := explore_length_le stop more
      omega
  | overflowed flooded state => exact .overflowed flooded state

theorem collectLoop_ended (graph : Graph heap memory objects reach)
    (consistent : Consistent heap memory objects reach marker) {fuel : Nat}
    (stage : Stage heap objects bound start marker)
    (run : collectLoop heap fuel marker = some next) :
    Consistent heap memory objects reach next ∧ Ended heap objects bound start next := by
  have kept := whileLoop_run
    (fun marker => Consistent heap memory objects reach marker ∧
      Stage heap objects bound start marker) ?_ ⟨consistent, stage⟩ run
  · have stop : next.stack.length ≤ next.cursor := by simpa using kept.2
    exact ⟨kept.1.1, kept.1.2.ended stop⟩
  · rintro current after ⟨keeps, stands⟩ more step
    have below : current.cursor < current.stack.length := by simpa using more
    obtain ⟨member, reached⟩ := keeps.entries _ (List.getElem_mem below)
    obtain ⟨walked, pushed, hwalk, final, grows, _⟩ := walk_spec graph keeps member reached
    have advanced : { walked with cursor := walked.cursor + 1 } = after := by
      simpa [List.getElem?_eq_getElem below, hwalk] using step
    rw [← advanced]
    exact ⟨final.advance grows below, stands.round graph keeps below hwalk⟩

theorem rescanLoopAsserted_eq (heap : Heap) (fuel rounds : Nat) (marker : Marker) :
    rescanLoopAsserted heap fuel rounds marker =
      (rescanLoop heap fuel rounds marker).map fun marker =>
        if marker.state = .normal then .ok marker else .error .stateAtReturn := by
  induction rounds generalizing marker with
  | zero => rfl
  | succ rounds ih =>
      unfold rescanLoopAsserted rescanLoop
      cases drained : drainLoop heap fuel marker with
      | none => rfl
      | some marker =>
          simp only [Option.bind_eq_bind, Option.bind_some]
          split
          · cases handled : handleStackOverflow heap { marker with state := .normal } with
            | none => rfl
            | some marker => exact ih marker
          · split <;> simp_all

theorem Marker.normal_of (quiet : marker.state ≠ .overflow) (left : marker.state ≠ .collect) :
    marker.state = .normal := by
  cases state : marker.state with
  | collect => exact absurd state left
  | normal => rfl
  | overflow => exact absurd state quiet

theorem not_flooded_of_many (many : bound < start.length) :
    ¬Flooded heap objects bound start := by
  rintro ⟨n, _, few, _⟩
  have longer := (prefix_explore heap.walk objects start 0 (Nat.zero_le n)).length_le
  have same : explore heap.walk objects start 0 0 = start := rfl
  rw [same] at longer
  omega

structure Walked (heap : Heap) (memory : Memory) (objects : List Nat) (reach : Nat → Prop)
    (bound : Nat) (start : List Nat) (marker next : Marker) : Prop where
  consistent : Consistent heap memory objects reach next
  finished : Finished heap objects next
  dry : marker.state = .collect → ¬Flooded heap objects bound start
  collecting : next.state = .collect → marker.state = .collect ∧
    ∃ n, Collecting objects bound n (explore heap.walk objects start 0 n) next ∧
      (explore heap.walk objects start 0 n).length ≤ n
  many : marker.state = .collect → next.state ≠ .collect →
    ∃ n, bound < (explore heap.walk objects start 0 n).length

theorem walkMarkStackAsserted_spec {layout : Nat → List Nat}
    (scannable : Scannable heap memory layout)
    (graph : Graph heap memory objects reach)
    (included : ∀ p ∈ objects, p ∈ heap.scan layout)
    {fuel : Nat} (enough : 2 * objects.length + heap.stackSize + 2 ≤ fuel)
    (consistent : Consistent heap memory objects reach marker)
    (ready : Ready heap objects marker)
    (stage : marker.state = .collect → Stage heap objects bound start marker) :
    (walkMarkStackAsserted heap fuel marker = some (.error .stateAfterCollecting) ∧
      marker.state = .collect ∧ Flooded heap objects bound start) ∨
    ∃ next, walkMarkStackAsserted heap fuel marker = some (.ok next) ∧
      Walked heap memory objects reach bound start marker next := by
  have few : ∀ marker : Marker, unmarkedCount objects marker ≤ objects.length :=
    fun marker => List.countP_le_length
  have fits := consistent.fits
  by_cases collecting : marker.state = .collect
  · rw [Ready, if_pos collecting] at ready
    have := few marker
    obtain ⟨mid, loop, keeps, _, complete, covers⟩ :=
      collectLoop_spec graph consistent collecting ready fuel (by omega)
    have ended := (collectLoop_ended graph consistent (stage collecting) loop).2
    unfold walkMarkStackAsserted
    rw [if_pos collecting, loop, Option.bind_eq_bind, Option.bind_some]
    cases ended with
    | collecting n dry holds visited =>
        have still := holds.state
        rw [if_pos still]
        refine .inr ⟨mid, rfl, keeps, ⟨by simp [still], ?_, complete⟩, fun _ => dry,
          fun _ => ⟨collecting, n, holds, visited⟩, fun _ left => absurd still left⟩
        simpa [window, still, complete still] using covers
    | settled dry state many =>
        have left : mid.state ≠ .collect := by simp [state]
        obtain ⟨next, rescan, final, finished, stays, _⟩ :=
          rescanLoop_moved scannable graph included enough keeps left covers
        rw [if_neg left, if_neg (not_not.mpr state), if_neg (not_not.mpr (keeps.settled left)),
          rescanLoopAsserted_eq, rescan, Option.map_some,
          if_pos (Marker.normal_of finished.quiet stays)]
        exact .inr ⟨next, rfl, final, finished, fun _ => dry,
          fun collects => absurd collects stays, fun _ _ => many⟩
    | overflowed flooded state =>
        rw [if_neg (by simp [state]), if_pos (by simp [state])]
        exact .inl ⟨rfl, collecting, flooded⟩
  · rw [Ready, if_neg collecting] at ready
    have := few marker
    obtain ⟨next, rescan, final, finished, stays, _⟩ :=
      rescanLoop_spec scannable graph included fuel fuel (by omega) consistent collecting ready
        (by split <;> omega)
    right
    refine ⟨next, ?_, final, finished, fun collects => absurd collects collecting,
      fun collects => absurd collects stays, fun collects => absurd collects collecting⟩
    unfold walkMarkStackAsserted
    rw [if_neg collecting, rescanLoopAsserted_eq, rescan, Option.map_some,
      if_pos (Marker.normal_of finished.quiet stays)]

end

/-! From the roots to the finalizable objects. -/

section

variable {heap : Heap} {roots : Roots} {finals : Finals} {memory : Memory}
  {layout : Nat → List Nat} {objects : List Nat} {heapSize bound : Nat} {marker next : Marker}
  {reach : Nat → Prop} {start : List Nat}

theorem rootList_nodup : (rootList heap roots objects).Nodup :=
  discover_nodup List.nodup_nil

theorem rootList_allowed : ∀ p ∈ rootList heap roots objects, p ∈ objects := by
  intro p member
  rcases mem_discover.mp member with old | new
  · exact absurd old List.not_mem_nil
  · exact new.1

theorem liveList_ended : (liveList heap roots objects).length ≤ 0 + objects.length :=
  explore_ended rootList_nodup rootList_allowed

theorem liveList_eq {n : Nat}
    (visited : (explore heap.walk objects (rootList heap roots objects) 0 n).length ≤ n) :
    liveList heap roots objects =
      explore heap.walk objects (rootList heap roots objects) 0 n := by
  have ended : (explore heap.walk objects (rootList heap roots objects) 0 n).length ≤ 0 + n := by
    omega
  rcases Nat.le_total n objects.length with le | ge
  · exact explore_stable ended le
  · exact (explore_stable liveList_ended ge).symm

theorem splitFinals_congr {other : Memory}
    (same : ∀ address, hasFlag (memory address) .mark = hasFlag (other address) .mark) :
    splitFinals memory finals = splitFinals other finals := by
  unfold splitFinals
  simp only [same]

theorem Consistent.splitFinals_eq
    (consistent : Consistent heap memory objects reach marker)
    (marked : ∀ p ∈ objects, marker.isMarked p = true ↔ p ∈ start)
    (included : ∀ p ∈ start, p ∈ objects) :
    splitFinals marker.memory finals =
      splitFinals (Small.markHeaders memory (start.map header)) finals := by
  apply splitFinals_congr
  intro address
  unfold Small.markHeaders
  split
  · next member =>
      obtain ⟨p, inStart, rfl⟩ := List.mem_map.mp member
      have isMarked : hasFlag (marker.memory (header p)) .mark = true :=
        (marked p (included p inStart)).mpr inStart
      rw [isMarked, hasFlag_setFlag]
      simp
  · next absent =>
      rcases consistent.memory_eq address with same | ⟨p, member, _, rfl, changed⟩
      · rw [same]
      · have isMarked : marker.isMarked p = true := by
          rw [Marker.isMarked, changed, hasFlag_setFlag]
          simp
        exact absurd (List.mem_map_of_mem ((marked p member).mp isMarked)) absent

theorem rooted_settled (graph : Graph heap memory objects reach)
    (rootsOk : ∀ q ∈ roots.pointers heap, Markable memory objects q)
    (reached : ∀ q ∈ roots.pointers heap, q ∈ objects → reach q)
    (run : (roots.pointers heap).foldlM (mark heap) (initialMarker heap memory) = some next) :
    Settled heap objects (rootList heap roots objects) next := by
  refine (Settled.markAll graph (initialMarker_consistent _ _) rootsOk reached ?_ run).1
  refine ⟨fun _ => ⟨rfl, rfl⟩, fun full => absurd full (Nat.not_lt_zero _), fun p member => ?_⟩
  have unmarked : (initialMarker heap memory).isMarked p = false := graph.unmarked p member
  simp [unmarked]

theorem rooted_few_iff (roomy : bound < heap.stackSize)
    {pushed : List Nat} (grows : Grows heap objects (initialMarker heap memory) pushed next)
    (settled : Settled heap objects (rootList heap roots objects) next) :
    next.stack.length ≤ bound ↔ (rootList heap roots objects).length ≤ bound := by
  rcases Nat.lt_or_ge heap.stackSize (rootList heap roots objects).length with full | fits
  · have filled : heap.stackSize ≤ next.stack.length := by
      rcases grows.overflow (settled.full full) with before | ⟨_, filled⟩
      · cases before
      · exact filled
    omega
  · rw [(settled.fits fits).2]

theorem chooseState_stage (settled : Settled heap objects (rootList heap roots objects) marker)
    (roomy : bound < heap.stackSize)
    (few : (rootList heap roots objects).length ≤ bound)
    (short : marker.stack.length ≤ bound) :
    Stage heap objects (bound + 1) (rootList heap roots objects) (chooseState bound marker) := by
  have stack := (settled.fits (by omega)).2
  rw [chooseState, if_pos short]
  exact .collecting 0 ⟨rfl, stack, rfl, rfl, Nat.le_succ_of_le few, settled.marked⟩

/-- The collecting loop may go on where the finalizable objects have been marked. -/
theorem finals_stage (graph : Graph heap memory objects reach)
    (consistent : Consistent heap memory objects reach marker)
    {n : Nat} {pointers : List Nat}
    (collecting : Collecting objects bound n (explore heap.walk objects start 0 n) marker)
    (visited : (explore heap.walk objects start 0 n).length ≤ n)
    (markable : ∀ q ∈ pointers, Markable memory objects q)
    (reached : ∀ q ∈ pointers, q ∈ objects → reach q)
    (run : pointers.foldlM (mark heap) marker = some next) (still : next.state = .collect) :
    Stage heap objects bound
      (discover objects (explore heap.walk objects start 0 n) pointers) next := by
  generalize list : explore heap.walk objects start 0 n = found at *
  rcases collecting.markAll graph consistent markable reached run with
    holds | ⟨_, settled, _⟩
  · have same : explore heap.walk objects (discover objects found pointers) 0 n =
        discover objects found pointers := by
      apply explore_of_closed
      intro i p _ entry q refers isAllowed
      have cursor := (consistent.collecting collecting.state).2.2
      rw [collecting.cursor, collecting.stack] at cursor
      have inside : i < found.length := by omega
      have old : found[i]? = some p := by
        rw [List.getElem?_eq_getElem inside, ← entry,
          List.getElem?_eq_getElem ((prefix_discover _ _ _).length_le.trans_lt' inside),
          (prefix_discover objects found pointers).getElem inside]
      rw [← list] at old
      have known := explore_closed (by omega) old refers isAllowed
      rw [list] at known
      exact (prefix_discover _ _ _).subset known
    rw [← same] at holds
    exact .collecting n holds
  · rcases Nat.lt_or_ge heap.stackSize (discover objects found pointers).length with full | fits
    · rw [settled.full full] at still
      cases still
    · rw [(settled.fits fits).1] at still
      cases still

theorem markable_doFinal
    (finalsOk : ∀ node ∈ (splitFinals marker.memory finals).doFinal,
      Markable memory objects node.object) :
    ∀ q ∈ (splitFinals marker.memory finals).doFinal.map (·.object),
      Markable memory objects q := by
  intro q member
  obtain ⟨node, inList, rfl⟩ := List.mem_map.mp member
  exact finalsOk node inList

def AssertionsHold (outcome : Except Assertion Marker) : Prop :=
  ∀ assertion, outcome = .error assertion → ¬assertion.OfMarker

theorem assertionsHold_ok (marker : Marker) : AssertionsHold (.ok marker) := by
  intro assertion failed
  cases failed

theorem not_assertionsHold : ¬AssertionsHold (.error .stateAfterCollecting) :=
  fun holds => holds _ rfl trivial

theorem liveList_longest (n : Nat) :
    (explore heap.walk objects (rootList heap roots objects) 0 n).length ≤
      (liveList heap roots objects).length :=
  explore_length_le liveList_ended n

theorem finalList_longer :
    (liveList heap roots objects).length ≤
      (finalList heap roots finals memory objects).length :=
  (prefix_discover _ _ _).length_le

section Finals

variable (scannable : Scannable heap memory layout) (graph : Graph heap memory objects reach)
  (included : ∀ p ∈ objects, p ∈ heap.scan layout) {fuel : Nat}
  (enough : 2 * objects.length + heap.stackSize + 2 ≤ fuel)
  (consistent : Consistent heap memory objects reach marker)
  (finished : Finished heap objects marker)
  (finalsOk : ∀ node ∈ (splitFinals marker.memory finals).doFinal,
    Markable memory objects node.object)
  (reached : ∀ p ∈ objects, reach p)

include scannable graph included enough consistent finished finalsOk reached

theorem walkFinalsAsserted_spec
    (stage : ∀ next, ((splitFinals marker.memory finals).doFinal.map (·.object)).foldlM
      (mark heap) marker = some next → next.state = .collect →
      Stage heap objects bound start next) :
    (walkFinalsAsserted heap fuel finals marker = some (.error .stateAfterCollecting) ∧
      marker.state = .collect ∧ Flooded heap objects bound start) ∨
    ∃ next marked, walkFinalsAsserted heap fuel finals marker = some (.ok next) ∧
      ((splitFinals marker.memory finals).doFinal.map (·.object)).foldlM
        (mark heap) marker = some marked ∧
      (marked.state = .collect → ¬Flooded heap objects bound start) := by
  have markable := markable_doFinal finalsOk
  obtain ⟨marked, pushed, run, keeps, grows, _⟩ :=
    markAll_spec graph _ consistent markable fun q _ => reached q
  have walks : walkFinalsAsserted heap fuel finals marker =
      walkMarkStackAsserted heap fuel marked := by
    rw [List.foldlM_map] at run
    simp only [walkFinalsAsserted, run, Option.bind_eq_bind, Option.bind_some]
  rw [walks]
  rcases walkMarkStackAsserted_spec scannable graph included enough keeps
    (finished.ready grows) (stage marked run) with ⟨fails, collecting, flooded⟩ | ⟨next, ok, walked⟩
  · exact .inl ⟨fails, (grows.collecting collecting).1, flooded⟩
  · exact .inr ⟨next, marked, ok, run, walked.dry⟩

/-- While the live objects are being collected, the finalizable ones decide. -/
theorem walkFinals_collecting {n : Nat}
    (collecting : Collecting objects bound n
      (explore heap.walk objects (rootList heap roots objects) 0 n) marker)
    (visited : (explore heap.walk objects (rootList heap roots objects) 0 n).length ≤ n) :
    ∃ outcome, walkFinalsAsserted heap fuel finals marker = some outcome ∧
      (AssertionsHold outcome ↔
        ¬Flooded heap objects bound (finalList heap roots finals memory objects)) := by
  have markable := markable_doFinal finalsOk
  have split : splitFinals marker.memory finals = splitFinals (Small.markHeaders memory
      ((explore heap.walk objects (rootList heap roots objects) 0 n).map header)) finals :=
    consistent.splitFinals_eq collecting.marked (explore_allowed rootList_allowed 0 n)
  have final : finalList heap roots finals memory objects =
      discover objects (explore heap.walk objects (rootList heap roots objects) 0 n)
        ((splitFinals marker.memory finals).doFinal.map (·.object)) := by
    rw [finalList, liveList_eq visited, split]
  rw [final]
  rcases walkFinalsAsserted_spec scannable graph included enough consistent finished finalsOk
    reached (fun marked run collects => finals_stage graph consistent collecting visited markable
      (fun q _ => reached q) run collects) with
    ⟨fails, _, flooded⟩ | ⟨last, marked, ok, run, dry⟩
  · exact ⟨_, fails, iff_of_false not_assertionsHold (not_not.mpr flooded)⟩
  · refine ⟨_, ok, iff_of_true (assertionsHold_ok last) ?_⟩
    rcases collecting.markAll graph consistent markable (fun q _ => reached q) run with
      collects | ⟨many, _⟩
    · exact dry collects.state
    · exact not_flooded_of_many many

theorem walkFinals_settled (left : marker.state ≠ .collect) :
    ∃ last, walkFinalsAsserted heap fuel finals marker = some (.ok last) := by
  have never : ∀ marked, ((splitFinals marker.memory finals).doFinal.map (·.object)).foldlM
      (mark heap) marker = some marked → marked.state = .collect →
      Stage heap objects 0 [] marked := by
    intro marked run collects
    obtain ⟨_, _, again, _, grows, _⟩ :=
      markAll_spec graph _ consistent (markable_doFinal finalsOk) fun q _ => reached q
    obtain rfl := Option.some.inj (run.symm.trans again)
    exact absurd (grows.collecting collects).1 left
  rcases walkFinalsAsserted_spec scannable graph included enough consistent finished finalsOk
    reached never with ⟨_, collects, _⟩ | ⟨last, _, ok, _⟩
  · exact absurd collects left
  · exact ⟨last, ok⟩

end Finals

theorem chooseState_collects_iff {rooted : Marker} (roomy : bound < heap.stackSize)
    {pushed : List Nat} (grows : Grows heap objects (initialMarker heap memory) pushed rooted)
    (settled : Settled heap objects (rootList heap roots objects) rooted) :
    (chooseState bound rooted).state = .collect ↔
      (rootList heap roots objects).length ≤ bound := by
  rw [← rooted_few_iff roomy grows settled]
  constructor
  · intro collecting
    by_contra long
    rw [chooseState, if_neg long] at collecting
    exact absurd (grows.collecting collecting).1 (by simp [initialMarker])
  · intro short
    rw [chooseState, if_pos short]

/-- The mark phase returns, and an assertion about the marker's state fails exactly in a
flood. -/
theorem markPhaseAsserted_iff (wellFormed : heap.WellFormed memory layout)
    (rootsOk : ∀ q ∈ roots.pointers heap, Markable memory (heap.objects memory layout) q)
    (finalsOk : ∀ node ∈ finals.hasFinal ++ finals.doFinal,
      Markable memory (heap.objects memory layout) node.object)
    {fuel : Nat}
    (enough : 2 * (heap.objects memory layout).length + heap.stackSize + 2 ≤ fuel) :
    ∃ outcome, markPhaseAsserted heap roots finals heapSize fuel memory = some outcome ∧
      (AssertionsHold outcome ↔
        ¬GivesUpFlooded heap roots finals heapSize memory (heap.objects memory layout)) := by
  let objects := heap.objects memory layout
  let bound := markStackSuggestBound heap.stackSize heapSize
  have scannable := wellFormed.scannable
  have included : ∀ p ∈ objects, p ∈ heap.scan layout :=
    fun p => heap.objects_subset_scan memory layout
  have plain := wellFormed.graph []
  have graph : Graph heap memory objects fun _ => True :=
    ⟨plain.room, plain.unmarked, plain.edges, fun _ _ _ _ _ _ => trivial⟩
  obtain ⟨rooted, pushed, marks, rootedOk, grows, _⟩ :=
    markAll_spec graph _ (initialMarker_consistent _ _) rootsOk fun _ _ _ => trivial
  have settled := rooted_settled graph rootsOk (fun _ _ _ => trivial) marks
  have start : walkRoots heap roots (initialMarker heap memory) = some rooted := by
    rw [walkRoots_eq]
    exact marks
  unfold initialMarker at start
  by_cases roomy : bound + 1 < heap.stackSize
  · obtain ⟨chosenOk, chosenReady⟩ := chooseState_ready roomy graph.unmarked rootedOk grows
    have inside : bound < heap.stackSize := by omega
    have collects_iff := chooseState_collects_iff inside grows settled
    have stage : (chooseState bound rooted).state = .collect →
        Stage heap objects (bound + 1) (rootList heap roots objects)
          (chooseState bound rooted) := by
      intro collecting
      have few := collects_iff.mp collecting
      exact chooseState_stage settled inside few ((rooted_few_iff inside grows settled).mpr few)
    have limited : (chooseState bound rooted).limit ≤ heap.stackSize := by
      by_cases collecting : (chooseState bound rooted).state = .collect
      · exact (chosenOk.collecting collecting).2.1.le
      · exact (chosenOk.settled collecting).le
    have phase : markPhaseAsserted heap roots finals heapSize fuel memory =
        (walkMarkStackAsserted heap fuel (chooseState bound rooted)).bind fun
          | .error assertion => some (.error assertion)
          | .ok marker => walkFinalsAsserted heap fuel finals marker := by
      simp only [markPhaseAsserted, start, Option.bind_eq_bind, Option.bind_some]
      rw [if_pos roomy]
      exact if_pos limited
    have lists : ∀ later : Memory, ∀ node ∈ (splitFinals later finals).doFinal,
        Markable memory objects node.object :=
      fun later node inList => finalsOk node (splitFinals_doFinal later finals inList)
    rw [phase]
    rcases walkMarkStackAsserted_spec scannable graph included enough chosenOk chosenReady
      stage with ⟨fails, collecting, flooded⟩ | ⟨next, ok, walked⟩
    · rw [fails]
      exact ⟨_, rfl, iff_of_false not_assertionsHold
        (not_not.mpr ⟨roomy, collects_iff.mp collecting, .inl flooded⟩)⟩
    · rw [ok, Option.bind_some]
      by_cases still : next.state = .collect
      · obtain ⟨collecting, n, holds, visited⟩ := walked.collecting still
        obtain ⟨outcome, run, holds_iff⟩ := walkFinals_collecting scannable graph included enough
          walked.consistent walked.finished (lists next.memory) (fun _ _ => trivial) holds visited
        refine ⟨outcome, run, holds_iff.trans (not_congr ⟨fun flooded => ?_, ?_⟩)⟩
        · exact ⟨roomy, collects_iff.mp collecting, .inr flooded⟩
        · rintro ⟨_, _, flooded | flooded⟩
          · exact absurd flooded (walked.dry collecting)
          · exact flooded
      · obtain ⟨last, run⟩ := walkFinals_settled scannable graph included enough
          walked.consistent walked.finished (lists next.memory) (fun _ _ => trivial) still
        refine ⟨_, run, iff_of_true (assertionsHold_ok last) ?_⟩
        rintro ⟨_, few, flooded | flooded⟩
        · exact walked.dry (collects_iff.mpr few) flooded
        · obtain ⟨n, many⟩ := walked.many (collects_iff.mpr few) still
          have longest : (explore heap.walk objects (rootList heap roots objects) 0 n).length ≤
              (finalList heap roots finals memory objects).length :=
            (liveList_longest n).trans finalList_longer
          exact not_flooded_of_many (many.trans_le longest) flooded
  · refine ⟨.error .suggestedBound, ?_, iff_of_true ?_ fun flooded => roomy flooded.1⟩
    · simp only [markPhaseAsserted, start, Option.bind_eq_bind, Option.bind_some]
      exact if_neg roomy
    · rintro assertion failed
      cases failed
      exact id

end

/-- The assertion in `mark` holds in every state, and those in `walk_mark_stack` hold in the
mark phase exactly if collecting is not given up in a flood. -/
theorem marker_assertions_hold_iff (heap : Heap) (roots : Roots) (finals : Finals)
    (heapSize : Nat) {memory : Memory} {layout : Nat → List Nat}
    (wellFormed : heap.WellFormed memory layout)
    (rootsOk : ∀ q ∈ roots.pointers heap, Markable memory (heap.objects memory layout) q)
    (finalsOk : ∀ node ∈ finals.hasFinal ++ finals.doFinal,
      Markable memory (heap.objects memory layout) node.object) :
    (∀ marker p, markAsserted heap marker p = (mark heap marker p).map .ok) ∧
      ∃ enough, ∀ fuel, enough ≤ fuel → ∃ outcome,
        markPhaseAsserted heap roots finals heapSize fuel memory = some outcome ∧
          (AssertionsHold outcome ↔
            ¬GivesUpFlooded heap roots finals heapSize memory (heap.objects memory layout)) :=
  ⟨markAsserted_eq heap, _, fun _ enough =>
    markPhaseAsserted_iff wellFormed rootsOk finalsOk enough⟩

/-! A heap of sixteen megabytes whose root is an array of references to all the other
objects. -/

private def floodObjects (n : Nat) : List Nat :=
  (List.range n).map fun i => 16 * (i + 2)

private theorem floodObjects_nodup (n : Nat) : (floodObjects n).Nodup := by
  apply List.Nodup.map _ List.nodup_range
  intro i j same
  change 16 * (i + 2) = 16 * (j + 2) at same
  omega

private theorem room_of_mem_floodObjects {n p : Nat} (member : p ∈ floodObjects n) :
    32 ≤ p := by
  obtain ⟨i, _, rfl⟩ := List.mem_map.mp member
  omega

private theorem floodObjects_length (n : Nat) : (floodObjects n).length = n := by
  rw [floodObjects, List.length_map, List.length_range]

private def floodHeap (n : Nat) : Heap where
  walk := fun p => if p = 0 then [16] else if p = 16 then floodObjects n else []
  stackSize := 256 * 1024
  largeObjects := [16 :: floodObjects n]
  smallRegions := []

private def floodRoots : Roots where
  bundles := [0]
  outOfMemoryError := 0
  liveThreads := []
  isObject := fun _ => false

private theorem flood_objects (n : Nat) :
    (floodHeap n).objects (fun _ => 0) (fun _ => []) = 16 :: floodObjects n := by
  simp [Heap.objects, Heap.usedBlocks, floodHeap]

private theorem flood_pointers (n : Nat) : floodRoots.pointers (floodHeap n) = [16, 0] := by
  simp [Roots.pointers, floodHeap, floodRoots]

private theorem flood_wellFormed (n : Nat) :
    (floodHeap n).WellFormed (fun _ => 0) (fun _ => []) where
  scannable := by
    refine ⟨by simp [Heap.usedBlocks, floodHeap], ?_, fun _ _ => rfl⟩
    intro p member
    have inside : p ∈ 16 :: floodObjects n := by
      simpa [Heap.scan, Heap.usedBlocks, floodHeap] using member
    unfold gcHead
    rcases List.mem_cons.mp inside with rfl | listed
    · decide
    · have := room_of_mem_floodObjects listed
      omega
  edges := by
    intro p member q edge
    rw [flood_objects] at member ⊢
    rcases List.mem_cons.mp member with rfl | listed
    · exact .inr (.inl (List.mem_cons_of_mem _ edge))
    · have := room_of_mem_floodObjects listed
      change q ∈ if p = 0 then [16] else if p = 16 then floodObjects n else [] at edge
      rw [if_neg (by omega), if_neg (by omega)] at edge
      contradiction

private theorem flood_rootsOk (n : Nat) : ∀ q ∈ floodRoots.pointers (floodHeap n),
    Markable (fun _ => 0) ((floodHeap n).objects (fun _ => 0) (fun _ => [])) q := by
  intro q member
  rw [flood_pointers] at member
  rw [flood_objects]
  rcases List.mem_cons.mp member with rfl | zero
  · exact .inr (.inl List.mem_cons_self)
  · exact .inl (List.mem_singleton.mp zero)

theorem marker_assertions_hold_iff_three :
    (∀ marker p, markAsserted (floodHeap 3) marker p = (mark (floodHeap 3) marker p).map .ok) ∧
      ∃ enough, ∀ fuel, enough ≤ fuel → ∃ outcome,
        markPhaseAsserted (floodHeap 3) floodRoots ⟨[], []⟩ (2 ^ 24) fuel (fun _ => 0) =
            some outcome ∧
          (AssertionsHold outcome ↔
            ¬GivesUpFlooded (floodHeap 3) floodRoots ⟨[], []⟩ (2 ^ 24) (fun _ => 0)
              ((floodHeap 3).objects (fun _ => 0) (fun _ => []))) :=
  marker_assertions_hold_iff (floodHeap 3) floodRoots ⟨[], []⟩ (2 ^ 24) (flood_wellFormed 3)
    (flood_rootsOk 3) fun _ member => absurd member List.not_mem_nil

private theorem flood_rootList (n : Nat) :
    rootList (floodHeap n) floodRoots (16 :: floodObjects n) = [16] := by
  rw [rootList, flood_pointers, discover_cons, discover_fresh List.mem_cons_self (by simp),
    List.nil_append]
  apply discover_known
  intro zero
  rcases List.mem_cons.mp zero with same | listed
  · cases same
  · have := room_of_mem_floodObjects listed
    omega

private theorem flood_explore (n : Nat) :
    explore (floodHeap n).walk (16 :: floodObjects n) [16] 0 1 = 16 :: floodObjects n := by
  have visits : (explore (floodHeap n).walk (16 :: floodObjects n) [16] 0 0)[0 + 0]? =
      some 16 := rfl
  rw [explore_visit visits]
  change discover (16 :: floodObjects n) [16] (floodObjects n) = _
  rw [discover_of_fresh (floodObjects_nodup n)]
  · rfl
  · intro q listed
    refine ⟨List.mem_cons_of_mem _ listed, ?_⟩
    have := room_of_mem_floodObjects listed
    rw [List.mem_singleton]
    omega

private theorem flood_givesUp {n : Nat} (many : 256 * 1024 ≤ n) :
    GivesUpFlooded (floodHeap n) floodRoots ⟨[], []⟩ (2 ^ 24) (fun _ => 0)
      ((floodHeap n).objects (fun _ => 0) (fun _ => [])) := by
  have suggested : markStackSuggestBound (256 * 1024) (2 ^ 24) = 131072 := by decide
  have bound : markStackSuggestBound (floodHeap n).stackSize (2 ^ 24) = 131072 := suggested
  have size : (floodHeap n).stackSize = 262144 := rfl
  have long : (16 :: floodObjects n).length = n + 1 := by
    rw [List.length_cons, floodObjects_length]
  rw [flood_objects, GivesUpFlooded, bound, flood_rootList]
  refine ⟨by omega, by decide, .inl ⟨0, 0, ?_, ?_, ?_⟩⟩
  · change [16].length ≤ 131072 + 1
    decide
  · rw [flood_explore, long]
    omega
  · change _ < (explore (floodHeap n).walk (16 :: floodObjects n) [16] 0 1).length
    rw [flood_explore, long, size]
    omega

/-- An array of 262144 references overflows the stack in the step that ends collecting. -/
theorem array_overflows_while_collecting :
    ¬∀ (heap : Heap) (roots : Roots) (finals : Finals) (heapSize : Nat) (memory : Memory)
      (layout : Nat → List Nat), heap.WellFormed memory layout →
      (∀ q ∈ roots.pointers heap, Markable memory (heap.objects memory layout) q) →
      (∀ node ∈ finals.hasFinal ++ finals.doFinal,
        Markable memory (heap.objects memory layout) node.object) →
      ∃ enough, ∀ fuel, enough ≤ fuel → ∃ outcome,
        markPhaseAsserted heap roots finals heapSize fuel memory = some outcome ∧
          AssertionsHold outcome := by
  intro claim
  obtain ⟨n, full⟩ : ∃ n, 256 * 1024 = n := ⟨_, rfl⟩
  let finals : Finals := ⟨[], []⟩
  have finalsOk : ∀ node ∈ finals.hasFinal ++ finals.doFinal,
      Markable (fun _ => 0) ((floodHeap n).objects (fun _ => 0) (fun _ => [])) node.object :=
    fun _ member => absurd member List.not_mem_nil
  obtain ⟨many, holds⟩ := claim (floodHeap n) floodRoots finals (2 ^ 24) _ _
    (flood_wellFormed n) (flood_rootsOk n) finalsOk
  obtain ⟨outcome, run, asserted⟩ := holds (max many _) (Nat.le_max_left _ _)
  obtain ⟨exactly, runs, holds_iff⟩ := markPhaseAsserted_iff (flood_wellFormed n)
    (flood_rootsOk n) finalsOk (Nat.le_max_right many _)
  rw [run] at runs
  obtain rfl := Option.some.inj runs
  exact holds_iff.mp asserted (flood_givesUp full.le)

end LaTTe.Gc
