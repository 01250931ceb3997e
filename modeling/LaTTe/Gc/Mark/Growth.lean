import LaTTe.Gc.Mark.Marker

namespace LaTTe.Gc

open LaTTe.Data

/-! What a sequence of `mark` calls can do to the marker.  Everything the
mark phase does between two pops of the stack is such a sequence. -/

def unmarkedCount (objects : List Nat) (marker : Marker) : Nat :=
  objects.countP fun p => !marker.isMarked p

structure Grows (heap : Heap) (objects : List Nat)
    (before : Marker) (pushed : List Nat) (after : Marker) : Prop where
  stack_eq : after.stack = before.stack ++ pushed
  keeps : ∀ p, before.isMarked p = true → after.isMarked p = true
  fresh : ∀ p ∈ objects, after.isMarked p = true →
    before.isMarked p = true ∨ p ∈ pushed ∨ after.state = .overflow
  spends : unmarkedCount objects after + pushed.length ≤
    unmarkedCount objects before
  overflow : after.state = .overflow → before.state = .overflow ∨
    (unmarkedCount objects after < unmarkedCount objects before ∧
      heap.stackSize ≤ after.stack.length)
  stays : before.state = .overflow → after.state = .overflow
  collecting : after.state = .collect →
    before.state = .collect ∧ after.cursor = before.cursor
  leaves : before.state = .collect → after.state ≠ .collect →
    after.saveCursor = before.cursor ∧ before.cursor ≤ after.cursor
  settled : before.state ≠ .collect →
    after.saveCursor = before.saveCursor ∧ after.cursor = before.cursor

namespace Grows

variable {heap : Heap} {objects : List Nat} {first second third : Marker}
  {left right : List Nat}

theorem refl (marker : Marker) : Grows heap objects marker [] marker where
  stack_eq := by simp
  keeps := fun _ marked => marked
  fresh := fun _ _ marked => .inl marked
  spends := by simp
  overflow := .inl
  stays := id
  collecting := fun collecting => ⟨collecting, rfl⟩
  leaves := fun collecting left => absurd collecting left
  settled := fun _ => ⟨rfl, rfl⟩

theorem trans (before : Grows heap objects first left second)
    (after : Grows heap objects second right third) :
    Grows heap objects first (left ++ right) third where
  stack_eq := by rw [after.stack_eq, before.stack_eq, List.append_assoc]
  keeps := fun p marked => after.keeps p (before.keeps p marked)
  fresh := by
    intro p member marked
    rcases after.fresh p member marked with marked | pushed | overflow
    · rcases before.fresh p member marked with marked | pushed | overflow
      · exact .inl marked
      · exact .inr (.inl (by simp [pushed]))
      · exact .inr (.inr (after.stays overflow))
    · exact .inr (.inl (by simp [pushed]))
    · exact .inr (.inr overflow)
  spends := by
    have first := before.spends
    have second := after.spends
    rw [List.length_append]
    omega
  overflow := by
    intro overflow
    have spentBefore := before.spends
    have spentAfter := after.spends
    rcases after.overflow overflow with overflow | ⟨fewer, full⟩
    · rcases before.overflow overflow with overflow | ⟨fewer, full⟩
      · exact .inl overflow
      · refine .inr ⟨by omega, ?_⟩
        rw [after.stack_eq, List.length_append]
        omega
    · exact .inr ⟨by omega, full⟩
  stays := fun overflow => after.stays (before.stays overflow)
  collecting := by
    intro collecting
    obtain ⟨middle, sameAfter⟩ := after.collecting collecting
    obtain ⟨start, sameBefore⟩ := before.collecting middle
    exact ⟨start, sameAfter.trans sameBefore⟩
  leaves := by
    intro collecting left
    by_cases middle : second.state = .collect
    · obtain ⟨_, same⟩ := before.collecting middle
      obtain ⟨saved, later⟩ := after.leaves middle left
      exact ⟨saved.trans same, by omega⟩
    · obtain ⟨saved, later⟩ := before.leaves collecting middle
      obtain ⟨sameSaved, same⟩ := after.settled middle
      exact ⟨sameSaved.trans saved, by omega⟩
  settled := by
    intro notCollecting
    have middle : second.state ≠ .collect := by
      intro collecting
      exact notCollecting (before.collecting collecting).1
    obtain ⟨savedBefore, sameBefore⟩ := before.settled notCollecting
    obtain ⟨savedAfter, sameAfter⟩ := after.settled middle
    exact ⟨savedAfter.trans savedBefore, sameAfter.trans sameBefore⟩

end Grows

structure Consistent (heap : Heap) (memory : Memory) (objects : List Nat)
    (reach : Nat → Prop) (marker : Marker) : Prop where
  memory_eq : ∀ address, marker.memory address = memory address ∨
    ∃ p ∈ objects, reach p ∧ header p = address ∧
      marker.memory address = setFlag (memory address) .mark
  entries : ∀ p ∈ marker.stack, p ∈ objects ∧ reach p
  fits : marker.stack.length ≤ heap.stackSize
  collecting : marker.state = .collect →
    marker.stack.length ≤ marker.limit ∧
      marker.limit < heap.stackSize ∧ marker.cursor ≤ marker.stack.length
  settled : marker.state ≠ .collect → marker.limit = heap.stackSize

/-- A value that may be handed to `mark`: null, an object of the collected
heap, or memory that is marked for good. -/
def Markable (memory : Memory) (objects : List Nat) (p : Nat) : Prop :=
  p = 0 ∨ p ∈ objects ∨ hasFlag (memory (header p)) .mark = true

section

variable {heap : Heap} {memory : Memory} {objects : List Nat}
  {reach : Nat → Prop} {marker : Marker}

theorem Consistent.headerSize_eq
    (consistent : Consistent heap memory objects reach marker)
    (head : Nat) : headerSize marker.memory head = headerSize memory head := by
  rcases consistent.memory_eq head with same | ⟨_, _, _, _, changed⟩
  · rw [headerSize, headerSize, same]
  · rw [headerSize, headerSize, changed, maskSize_setFlag]

theorem Consistent.isMarked_of_marked
    (consistent : Consistent heap memory objects reach marker) {p : Nat}
    (marked : hasFlag (memory (header p)) .mark = true) :
    marker.isMarked p = true := by
  rw [Marker.isMarked]
  rcases consistent.memory_eq (header p) with same | ⟨_, _, _, _, changed⟩
  · rw [same, marked]
  · rw [changed, hasFlag_setFlag]
    simp

theorem header_injective {p q : Nat} (pRoom : gcHead ≤ p) (qRoom : gcHead ≤ q)
    (same : header p = header q) : p = q := by
  unfold header gcHead at *
  omega

theorem Consistent.reach_of_isMarked
    (consistent : Consistent heap memory objects reach marker)
    (room : ∀ p ∈ objects, gcHead ≤ p)
    (unmarked : ∀ p ∈ objects, hasFlag (memory (header p)) .mark = false)
    {p : Nat} (member : p ∈ objects) (marked : marker.isMarked p = true) :
    reach p := by
  rcases consistent.memory_eq (header p) with same | ⟨q, hq, reached, same, _⟩
  · rw [Marker.isMarked, same, unmarked p member] at marked
    contradiction
  · have equal := header_injective (room q hq) (room p member) same
    rwa [equal] at reached

theorem isMarked_setMark_self (marker : Marker) (p : Nat) :
    (setMark marker p).isMarked p = true := by
  simp [Marker.isMarked, setMark]

theorem isMarked_setMark_of_isMarked (marker : Marker) (p : Nat) {q : Nat}
    (marked : marker.isMarked q = true) :
    (setMark marker p).isMarked q = true := by
  by_cases same : header q = header p
  · simp [Marker.isMarked, setMark, same]
  · simpa [Marker.isMarked, setMark, Memory.store_other _ _ same] using marked

theorem isMarked_of_isMarked_setMark (room : ∀ p ∈ objects, gcHead ≤ p)
    {p q : Nat} (hp : p ∈ objects) (hq : q ∈ objects)
    (marked : (setMark marker p).isMarked q = true) :
    marker.isMarked q = true ∨ q = p := by
  by_cases same : header q = header p
  · exact .inr (header_injective (room q hq) (room p hp) same)
  · left
    simpa [Marker.isMarked, setMark, Memory.store_other _ _ same] using marked

private theorem countP_lt {items : List Nat} {before after : Nat → Bool}
    (shrinks : ∀ item ∈ items, after item = true → before item = true)
    {item : Nat} (member : item ∈ items) (counted : before item = true)
    (dropped : after item = false) :
    items.countP after < items.countP before := by
  induction items with
  | nil => simp at member
  | cons head rest ih =>
      have tailLe : rest.countP after ≤ rest.countP before := by
        apply List.countP_mono_left
        intro entry inRest
        exact shrinks entry (by simp [inRest])
      simp only [List.countP_cons]
      by_cases same : item = head
      · subst same
        simp only [counted, dropped]
        simp
        omega
      · have smaller := ih
          (fun entry inRest => shrinks entry (by simp [inRest]))
          (by simpa [same] using member)
        have headImp := shrinks head (by simp)
        by_cases kept : after head = true
        · simp only [kept, headImp kept]
          omega
        · simp only [kept]
          simp
          omega

theorem unmarkedCount_setMark_lt {p : Nat} (member : p ∈ objects)
    (unmarked : marker.isMarked p = false) :
    unmarkedCount objects (setMark marker p) < unmarkedCount objects marker := by
  apply countP_lt _ member
  · simp [unmarked]
  · simp [isMarked_setMark_self]
  · intro q _ stillUnmarked
    cases marked : marker.isMarked q with
    | false => rfl
    | true =>
        simp [isMarked_setMark_of_isMarked marker p marked] at stillUnmarked

theorem Consistent.setMark
    (consistent : Consistent heap memory objects reach marker) {p : Nat}
    (member : p ∈ objects) (reached : reach p)
    (unmarked : marker.isMarked p = false) (address : Nat) :
    (setMark marker p).memory address = memory address ∨
      ∃ q ∈ objects, reach q ∧ header q = address ∧
        (Gc.setMark marker p).memory address =
          setFlag (memory address) .mark := by
  by_cases same : address = header p
  · refine .inr ⟨p, member, reached, same.symm, ?_⟩
    have original : marker.memory (header p) = memory (header p) := by
      rcases consistent.memory_eq (header p) with same | ⟨_, _, _, _, changed⟩
      · exact same
      · rw [Marker.isMarked, changed, hasFlag_setFlag] at unmarked
        simp at unmarked
    simp [Gc.setMark, same, original]
  · simpa [Gc.setMark, Memory.store_other _ _ same] using
      consistent.memory_eq address

private theorem Grows.pushed (room : ∀ p ∈ objects, gcHead ≤ p) {p : Nat}
    (member : p ∈ objects) (unmarked : marker.isMarked p = false)
    {next : Marker} (sameMemory : next.memory = (Gc.setMark marker p).memory)
    (stack_eq : next.stack = marker.stack ++ [p])
    (quiet : next.state = .overflow → marker.state = .overflow)
    (stays : marker.state = .overflow → next.state = .overflow)
    (collecting : next.state = .collect →
      marker.state = .collect ∧ next.cursor = marker.cursor)
    (leaves : marker.state = .collect → next.state ≠ .collect →
      next.saveCursor = marker.cursor ∧ marker.cursor ≤ next.cursor)
    (settled : marker.state ≠ .collect →
      next.saveCursor = marker.saveCursor ∧ next.cursor = marker.cursor) :
    Grows heap objects marker [p] next := by
  have same : ∀ q, next.isMarked q = (Gc.setMark marker p).isMarked q := by
    intro q
    rw [Marker.isMarked, Marker.isMarked, sameMemory]
  have fewer : unmarkedCount objects next < unmarkedCount objects marker := by
    have := unmarkedCount_setMark_lt member unmarked
    simpa only [unmarkedCount, same] using this
  refine ⟨stack_eq, ?_, ?_, fewer, fun h => .inl (quiet h), stays, collecting,
    leaves, settled⟩
  · intro q marked
    rw [same]
    exact isMarked_setMark_of_isMarked marker p marked
  · intro q hq marked
    rw [same] at marked
    rcases isMarked_of_isMarked_setMark room member hq marked with marked | equal
    · exact .inl marked
    · exact .inr (.inl (by simp [equal]))

private theorem Consistent.entries_push
    (consistent : Consistent heap memory objects reach marker) {p : Nat}
    (member : p ∈ objects) (reached : reach p) :
    ∀ q ∈ marker.stack ++ [p], q ∈ objects ∧ reach q := by
  intro q hq
  rcases List.mem_append.mp hq with hq | hq
  · exact consistent.entries q hq
  · rw [List.mem_singleton.mp hq]
    exact ⟨member, reached⟩

private theorem push_spec
    (consistent : Consistent heap memory objects reach marker)
    (room : ∀ p ∈ objects, gcHead ≤ p) {p : Nat} (member : p ∈ objects)
    (reached : reach p) (unmarked : marker.isMarked p = false)
    (below : marker.stack.length < marker.limit) :
    ∃ next, push heap (Gc.setMark marker p) p = some next ∧
      Consistent heap memory objects reach next ∧
      Grows heap objects marker [p] next ∧ next.isMarked p = true := by
  have fits : marker.stack.length < heap.stackSize := by
    by_cases collecting : marker.state = .collect
    · have := consistent.collecting collecting
      omega
    · rw [← consistent.settled collecting]
      exact below
  refine ⟨{ Gc.setMark marker p with stack := marker.stack ++ [p] },
    if_pos fits, ?_, ?_, isMarked_setMark_self marker p⟩
  · refine ⟨consistent.setMark member reached unmarked,
      consistent.entries_push member reached, by simpa using Nat.succ_le_of_lt fits, ?_,
      consistent.settled⟩
    intro collecting
    obtain ⟨_, limited, cursor⟩ := consistent.collecting collecting
    simp only [List.length_append, List.length_singleton]
    exact ⟨below, limited, Nat.le_add_right_of_le cursor⟩
  · exact .pushed room member unmarked rfl rfl id id
      (fun collecting => ⟨collecting, rfl⟩)
      (fun collecting left => absurd collecting left) (fun _ => ⟨rfl, rfl⟩)

private theorem markOverflow_spec
    (consistent : Consistent heap memory objects reach marker)
    (room : ∀ p ∈ objects, gcHead ≤ p) {p : Nat} (member : p ∈ objects)
    (reached : reach p) (unmarked : marker.isMarked p = false)
    (full : ¬ marker.stack.length < marker.limit) :
    ∃ next pushed, markOverflow heap (Gc.setMark marker p) p = some next ∧
      Consistent heap memory objects reach next ∧
      Grows heap objects marker pushed next ∧ next.isMarked p = true := by
  have self := isMarked_setMark_self marker p
  have memoryEq := consistent.setMark member reached unmarked
  by_cases collecting : marker.state = .collect
  · -- the set of live objects has become too large: fall back to plain marking
    obtain ⟨_, limited, cursor⟩ := consistent.collecting collecting
    have fits : marker.stack.length < heap.stackSize := by omega
    refine ⟨{ Gc.setMark marker p with
      saveCursor := marker.cursor
      cursor := marker.stack.length + 1
      limit := heap.stackSize
      state := .normal
      stack := marker.stack ++ [p] }, [p], ?_, ?_, ?_, self⟩
    · unfold markOverflow
      rw [show (Gc.setMark marker p).state = .collect from collecting]
      exact if_pos fits
    · exact ⟨memoryEq, consistent.entries_push member reached,
        by simpa using Nat.succ_le_of_lt fits, fun h => by simp at h, fun _ => rfl⟩
    · refine .pushed room member unmarked rfl rfl (by simp)
        (by simp [collecting]) (by simp) ?_ (fun h => absurd collecting h)
      intro _ _
      exact ⟨rfl, Nat.le_add_right_of_le cursor⟩
  · refine ⟨{ Gc.setMark marker p with state := .overflow }, [], ?_, ?_, ?_,
      self⟩
    · have state : (Gc.setMark marker p).state ≠ .collect := collecting
      unfold markOverflow
      split
      · contradiction
      · rfl
    · exact ⟨memoryEq, consistent.entries, consistent.fits,
        fun h => by simp at h, fun _ => consistent.settled collecting⟩
    · have fewer := unmarkedCount_setMark_lt member unmarked
      refine ⟨by simp [Gc.setMark], ?_, fun _ _ _ => .inr (.inr rfl), ?_, ?_,
        fun _ => rfl, ?_, fun h => absurd h collecting, fun _ => ⟨rfl, rfl⟩⟩
      · intro q
        exact isMarked_setMark_of_isMarked marker p
      · exact Nat.le_of_lt fewer
      · intro _
        refine .inr ⟨fewer, ?_⟩
        rw [← consistent.settled collecting]
        exact Nat.le_of_not_lt full
      · simp

theorem mark_spec (consistent : Consistent heap memory objects reach marker)
    (room : ∀ p ∈ objects, gcHead ≤ p) {p : Nat}
    (markable : Markable memory objects p) (reached : p ∈ objects → reach p) :
    ∃ next pushed, mark heap marker p = some next ∧
      Consistent heap memory objects reach next ∧
      Grows heap objects marker pushed next ∧
      (p = 0 ∨ next.isMarked p = true) := by
  by_cases skipped : p = 0 ∨ marker.isMarked p = true
  · exact ⟨marker, [], if_pos skipped, consistent, .refl marker, skipped⟩
  · obtain ⟨nonzero, unmarked⟩ := not_or.mp skipped
    have unmarked : marker.isMarked p = false := by simpa using unmarked
    have member : p ∈ objects := by
      rcases markable with zero | member | marked
      · contradiction
      · exact member
      · rw [consistent.isMarked_of_marked marked] at unmarked
        contradiction
    rw [mark, if_neg skipped]
    by_cases below : marker.stack.length < marker.limit
    · obtain ⟨next, run, keeps, grows, marked⟩ :=
        push_spec consistent room member (reached member) unmarked below
      refine ⟨next, [p], ?_, keeps, grows, .inr marked⟩
      exact (if_pos below).trans run
    · obtain ⟨next, pushed, run, keeps, grows, marked⟩ :=
        markOverflow_spec consistent room member (reached member) unmarked below
      refine ⟨next, pushed, ?_, keeps, grows, .inr marked⟩
      exact (if_neg below).trans run

end

end LaTTe.Gc
