import LaTTe.Gc.Large.ObjectSet
import LaTTe.Gc.Regions.Expansion

namespace LaTTe.Gc

open LaTTe.Data Manual

/-! Array objects.  Sizes are computed in 32 bits. -/

inductive PrimitiveType where
  | boolean
  | byte
  | char
  | short
  | int
  | long
  | float
  | double
  deriving DecidableEq, Repr

/-- `TYPE_PRIM_SIZE`. -/
def PrimitiveType.size : PrimitiveType → Nat
  | .boolean => 1
  | .byte => 1
  | .char => 2
  | .short => 2
  | .int => 4
  | .long => 8
  | .float => 4
  | .double => 8

def ptrTypeSize : Nat := 4

/-- `sizeof(Array)`: the dispatch table, the lock, the length and the encoding. -/
def sizeofArray : Nat := 16

/-- The class of arrays that `lookupArray` finds. -/
structure ArrayClass where
  dtable : Nat
  encoding : Nat

def roundUpAlign (v : Nat) : Nat :=
  (v + (memAlign - 1)) % wordSize / memAlign * memAlign

def arraySize (elementSize count : Nat) : Nat :=
  let size := (count * elementSize + sizeofArray) % wordSize
  roundUpAlign ((size + gcHead) % wordSize)

inductive ArrayResult where
  | negativeArraySize
  | of (result : Space.Result)
  deriving DecidableEq, Repr

namespace Space

/-- A negative `int` is taken for an overflow. -/
def allocateArray (space : Space) (size : Nat) : Option (Space × Result) :=
  if 2 ^ 31 ≤ size then
    some (space, .outOfMemory)
  else if size < gcMaxSmallObjectSize then
    space.gcMallocSmall size
  else
    space.gcMallocLarge size

def resumeArray (space : Space) (size : Nat) : Option (Space × Result) :=
  if size < gcMaxSmallObjectSize then
    space.resumeSmallAllocate size
  else
    space.resumeLargeAllocate size

def storeWord (space : Space) (size address value : Nat) : Space :=
  if size < gcMaxSmallObjectSize then
    { space with area := { space.area with memory := space.area.memory.store address value } }
  else
    { space with large := space.large.setMemory address value }

def describeArray (size : Nat) (fields : List (Nat × Nat)) (taken : Space × Result) :
    Space × ArrayResult :=
  match taken with
  | (space, .allocated p) =>
      (fields.foldl (fun space field => space.storeWord size (p + field.1) field.2) space,
        .of (.allocated p))
  | (space, result) => (space, .of result)

def newArray (space : Space) (elementSize : Nat) (fields : List (Nat × Nat)) (count : Int) :
    Option (Space × ArrayResult) :=
  if count < 0 then
    some (space, .negativeArraySize)
  else
    let size := arraySize elementSize count.toNat
    (space.allocateArray size).map (describeArray size fields)

def resumeNewArray (space : Space) (elementSize : Nat) (fields : List (Nat × Nat))
    (count : Int) : Option (Space × ArrayResult) :=
  let size := arraySize elementSize count.toNat
  (space.resumeArray size).map (describeArray size fields)

def primArrayFields (cls : ArrayClass) (count : Int) : List (Nat × Nat) :=
  [(0, cls.dtable), (8, count.toNat)]

def refArrayFields (cls : ArrayClass) (count : Int) : List (Nat × Nat) :=
  [(0, cls.dtable), (12, cls.encoding), (8, count.toNat)]

def newPrimArray (space : Space) (elclass : PrimitiveType) (cls : ArrayClass) (count : Int) :
    Option (Space × ArrayResult) :=
  space.newArray elclass.size (primArrayFields cls count) count

def newRefArray (space : Space) (cls : ArrayClass) (count : Int) :
    Option (Space × ArrayResult) :=
  space.newArray ptrTypeSize (refArrayFields cls count) count

end Space

def exactArraySize (elementSize count : Nat) : Nat :=
  (count * elementSize + sizeofArray + gcHead + (memAlign - 1)) / memAlign * memAlign

theorem arraySize_eq (elementSize count : Nat) :
    arraySize elementSize count = exactArraySize elementSize count % wordSize := by
  unfold arraySize roundUpAlign exactArraySize sizeofArray gcHead memAlign wordSize
  generalize count * elementSize = bytes
  dsimp only
  omega

theorem le_exactArraySize (elementSize count : Nat) :
    count * elementSize + sizeofArray + gcHead ≤ exactArraySize elementSize count ∧
      exactArraySize elementSize count ≤ count * elementSize + sizeofArray + gcHead + 7 ∧
      exactArraySize elementSize count % 8 = 0 := by
  unfold exactArraySize sizeofArray gcHead memAlign
  generalize count * elementSize = bytes
  omega

/-- The size of the array is not taken for a smaller one, and an expansion for it is not
too small: `mem_expand` does not allow for what `mem_allocate` adds. -/
structure ArrayFits (elementSize count : Nat) : Prop where
  unwrapped : wordSize ≤ exactArraySize elementSize count →
    2 ^ 31 ≤ exactArraySize elementSize count % wordSize
  expandable : gcMaxSmallObjectSize ≤ exactArraySize elementSize count →
    exactArraySize elementSize count < 2 ^ 31 →
    (exactArraySize elementSize count + 64) % gcRegionSize ≠ 0

namespace Space

/-- The first `bytes` bytes belong to the object: a small one has its size in its header,
and a large one ends where its node in the table of large objects begins. -/
def HasRoom (space : Space) (size bytes p : Nat) : Prop :=
  if size < gcMaxSmallObjectSize then
    headerSize space.area.memory (p - gcHead) = size ∧ bytes + gcHead ≤ size
  else
    p + bytes ≤ largeSetNode p size ∧
      largeSetNode p size + 12 + gcHead ≤ p + Gc.size space.large.memory p

def Enough (size bytes : Nat) (space : Space) : Result → Prop
  | .allocated p => gcHead ≤ p ∧ space.HasRoom size bytes p
  | .outOfMemory => True
  | .collecting => True

structure Ready (space : Space) (size : Nat) : Prop where
  fixed : ∃ regions layout allocated, Sound ⟨space.fixed, regions, allocated⟩ layout ∧
    ∀ start rest, askSystem space.answers = some (some start, rest) →
      Answers rest regions (smallBlocksTableSize * 4)
  large : ∃ regions layout allocated, Sound ⟨space.large, regions, allocated⟩ layout ∧
    Answers space.answers regions (largeSize size)
  room : space.table.length + 2 ≤ gcRegionTableSize

section

variable {space : Space} {size bytes p : Nat}

theorem HasRoom.storeWord (room : space.HasRoom size bytes p) (positive : gcHead ≤ p)
    (offset value : Nat) : (space.storeWord size (p + offset) value).HasRoom size bytes p := by
  unfold gcHead at positive
  unfold HasRoom Space.storeWord at *
  split at room
  · rename_i small
    rw [if_pos small, if_pos small, headerSize]
    dsimp only
    rw [Memory.store_other]
    · exact room
    · unfold gcHead
      omega
  · rename_i large
    rw [if_neg large, if_neg large]
    refine ⟨room.1, ?_⟩
    dsimp only
    rw [GcHeap.setMemory_memory, Gc.size, Memory.store_other]
    · exact room.2
    · unfold header gcHead
      omega

theorem Enough.describeArray {taken : Space × Result} (fields : List (Nat × Nat))
    (enough : Enough size bytes taken.1 taken.2) :
    ∃ final, Space.describeArray size fields taken = (final, .of taken.2) ∧
      Enough size bytes final taken.2 := by
  obtain ⟨space, result⟩ := taken
  cases result with
  | allocated p =>
      refine ⟨_, rfl, enough.1, ?_⟩
      obtain ⟨positive, room⟩ := enough
      induction fields generalizing space with
      | nil => exact room
      | cons field rest ih => exact ih _ (room.storeWord positive field.1 field.2)
  | outOfMemory => exact ⟨space, rfl, trivial⟩
  | collecting => exact ⟨space, rfl, trivial⟩

theorem finishSmall_enough (area : Small) (tmp : Nat) (small : size < gcMaxSmallObjectSize)
    (aligned : size % 8 = 0) (fits : bytes + gcHead ≤ size) :
    Enough size bytes (space.finishSmall area tmp size).1
        (space.finishSmall area tmp size).2 ∧
      (space.finishSmall area tmp size).2 ≠ .collecting := by
  refine ⟨⟨Nat.le_add_left _ _, ?_⟩, fun same => by cases same⟩
  rw [HasRoom, if_pos small]
  refine ⟨?_, fits⟩
  change maskSize (((Small.zero area.memory tmp size).store tmp size)
    (tmp + gcHead - gcHead)) = size
  rw [Nat.add_sub_cancel, Memory.store_same, maskSize_of_aligned aligned]

theorem takeSmall_enough (small : size < gcMaxSmallObjectSize) (aligned : size % 8 = 0)
    (fits : bytes + gcHead ≤ size) {taken : Space × Result}
    (took : space.takeSmall size = some taken) :
    Enough size bytes taken.1 taken.2 ∧ taken.2 ≠ .collecting := by
  obtain ⟨⟨tmp, area⟩, _, rfl⟩ := Option.map_eq_some_iff.mp took
  exact finishSmall_enough area tmp small aligned fits

theorem gcMallocFixed_table {regions : List Region} {layout : Region → List Nat}
    {allocated : List Nat} (sound : Sound ⟨space.fixed, regions, allocated⟩ layout)
    (answers : Answers space.answers regions (smallBlocksTableSize * 4))
    (room : space.table.length < gcRegionTableSize) :
    ∃ taken, space.gcMallocFixed (smallBlocksTableSize * 4) = some taken := by
  have fits : (Call.expand (smallBlocksTableSize * 4) none).Fits := by decide
  obtain ⟨heap, t, run, _⟩ := memAllocate_sound sound fits.allocate
  rw [gcMallocFixed, takeFixed, run, Option.bind_eq_bind, Option.bind_some]
  dsimp only
  split
  · have full : Full space.fixed regions layout allocated (smallBlocksTableSize * 4) := by
      obtain ⟨heap', t', run', found_iff⟩ := sound.memAllocate_ne_zero_iff fits.allocate
      obtain ⟨rfl, rfl⟩ := Prod.mk.inj (Option.some.inj (run.symm.trans run'))
      intro q isFree
      exact Nat.lt_of_not_le fun enough => found_iff.mpr ⟨q, isFree, enough⟩ ‹_›
    have retried : Retried space .fixed regions layout allocated _ _ :=
      expandAndRetry_spec sound fits (memAllocate_finds allocated fits.allocate) full answers
    cases retried with
    | refused next _ again _ => exact ⟨_, by rw [again]; rfl⟩
    | stuck stuck _ =>
        rcases stuck.useless with noRoom | exactly | little
        · omega
        · exact absurd exactly (by decide)
        · exact absurd little (by decide)
    | served next grown final added layout' t _ _ _ _ _ again => exact ⟨_, by rw [again]; rfl⟩
  · exact ⟨_, rfl⟩

theorem insertEntry_length (table : List TableRegion) (entry : TableRegion) :
    (insertEntry table entry).length = table.length + 1 := by
  have split := congrArg List.length (List.takeWhile_append_dropWhile
    (p := fun node : TableRegion => decide (entry.start < node.start)) (l := table.reverse))
  simp only [List.length_append, List.length_reverse] at split
  simp only [insertEntry, List.length_append, List.length_cons, List.length_reverse]
  omega

theorem smallGrant_returns (ready : space.Ready size) :
    ∃ next grant, space.smallGrant = some (next, grant) := by
  obtain ⟨regions, layout, allocated, sound, later⟩ := ready.fixed
  obtain ⟨_, _, _, _, answers⟩ := ready.large
  obtain ⟨answer, rest, answered⟩ := answers.answered
  have room := ready.room
  rw [smallGrant, regionAllocate]
  split
  · exact ⟨_, _, rfl⟩
  · rw [answered]
    cases answer with
    | none => exact ⟨_, _, rfl⟩
    | some start =>
        let next : Space := { space with
          answers := rest
          table := insertEntry space.table ⟨start, start + gcRegionSize, .small⟩ }
        have nextRoom : next.table.length < gcRegionTableSize := by
          have length := insertEntry_length space.table ⟨start, start + gcRegionSize, .small⟩
          change (insertEntry _ _).length < _
          omega
        have fixed : Sound ⟨next.fixed, regions, allocated⟩ layout := sound
        obtain ⟨taken, table⟩ := gcMallocFixed_table fixed
          (later start rest answered) nextRoom
        dsimp only
        rw [if_pos (by omega), Option.bind_eq_bind, Option.bind_some]
        dsimp only
        split
        · rw [table]
          exact ⟨_, _, rfl⟩
        · exact ⟨_, _, rfl⟩

theorem expandAndAllocateSmall_enough (ready : space.Ready size)
    (small : size < gcMaxSmallObjectSize) (aligned : size % 8 = 0)
    (fits : bytes + gcHead ≤ size) :
    ∃ taken, space.expandAndAllocateSmall size = some taken ∧
      Enough size bytes taken.1 taken.2 ∧ taken.2 ≠ .collecting := by
  have expanded : ∃ next grant, space.expandSmallArea = some (next, grant) := by
    obtain ⟨next, grant, granted⟩ := smallGrant_returns ready
    rw [Space.expandSmallArea, granted, Option.bind_eq_bind, Option.bind_some]
    cases grant with
    | region start table => exact ⟨_, _, rfl⟩
    | refused => exact ⟨_, _, rfl⟩
    | noTable => exact ⟨_, _, rfl⟩
  obtain ⟨next, grant, expanded⟩ := expanded
  have again : Enough size bytes ((next.takeSmall size).getD (next, .outOfMemory)).1
        ((next.takeSmall size).getD (next, .outOfMemory)).2 ∧
      ((next.takeSmall size).getD (next, .outOfMemory)).2 ≠ .collecting := by
    cases took : next.takeSmall size with
    | none => exact ⟨trivial, fun same => by cases same⟩
    | some taken => exact takeSmall_enough small aligned fits took
  rw [expandAndAllocateSmall, expanded, Option.bind_eq_bind, Option.bind_some]
  cases grant with
  | noTable => exact ⟨(next, .outOfMemory), rfl, trivial, fun same => by cases same⟩
  | region start table => exact ⟨_, rfl, again⟩
  | refused => exact ⟨_, rfl, again⟩

theorem Ready.closeSmall (ready : space.Ready size) : space.closeSmall.Ready size :=
  ⟨ready.fixed, ready.large, ready.room⟩

theorem resumeSmallAllocate_enough (ready : space.Ready size)
    (small : size < gcMaxSmallObjectSize) (aligned : size % 8 = 0)
    (fits : bytes + gcHead ≤ size) :
    ∃ taken, space.resumeSmallAllocate size = some taken ∧
      Enough size bytes taken.1 taken.2 ∧ taken.2 ≠ .collecting := by
  unfold Space.resumeSmallAllocate
  cases took : space.closeSmall.takeSmall size with
  | some taken => exact ⟨taken, rfl, takeSmall_enough small aligned fits took⟩
  | none => exact expandAndAllocateSmall_enough ready.closeSmall small aligned fits

theorem gcMallocSmall_enough (ready : space.Ready size)
    (small : size < gcMaxSmallObjectSize) (aligned : size % 8 = 0)
    (fits : bytes + gcHead ≤ size) :
    ∃ taken, space.gcMallocSmall size = some taken ∧
      Enough size bytes taken.1 taken.2 := by
  unfold Space.gcMallocSmall Space.slowSmallAllocate
  split
  · cases took : space.closeSmall.takeSmall size with
    | some taken => exact ⟨taken, rfl, (takeSmall_enough small aligned fits took).1⟩
    | none =>
        dsimp only
        split
        · obtain ⟨taken, run, enough, _⟩ :=
            expandAndAllocateSmall_enough ready.closeSmall small aligned fits
          exact ⟨taken, run, enough⟩
        · exact ⟨_, rfl, trivial⟩
  · exact ⟨_, rfl, (finishSmall_enough _ _ small aligned fits).1⟩

theorem largeSize_fits (less : size < 2 ^ 31) :
    largeSize size = size + 12 ∧ (Call.expand (largeSize size) none).Fits := by
  have same : largeSize size = size + 12 := by
    unfold largeSize wordSize
    omega
  refine ⟨same, ?_⟩
  rw [same]
  change size + 12 + 48 + 2097151 < wordSize
  unfold wordSize
  omega

theorem expansion_useless_iff (less : size < 2 ^ 31) (aligned : size % 8 = 0) :
    ((largeSize size + 6 * memAlign) % gcRegionSize = 0 ∨
      gcRegionSize < (largeSize size + 6 * memAlign) % gcRegionSize + memAlign + gcHead) ↔
      (size + 64) % gcRegionSize = 0 := by
  rw [(largeSize_fits less).1]
  unfold memAlign gcRegionSize gcHead
  omega

theorem allocated_enough (less : size < 2 ^ 31) (large : gcMaxSmallObjectSize ≤ size)
    (aligned : size % 8 = 0) (fits : bytes + gcHead ≤ size) {regions : List Region}
    {layout : Region → List Nat} {allocated : List Nat} {heap final : GcHeap}
    (sound : Sound ⟨heap, regions, allocated⟩ layout)
    (run : memAllocate heap (largeSize size) = some (final, p)) (found : p ≠ 0)
    (same : space.large = final) : Enough size bytes space (.allocated p) := by
  obtain ⟨request, fitsCall⟩ := largeSize_fits less
  obtain ⟨final', p', run', _, ⟨rfl, _⟩ | ⟨_, _, size_eq, _, layout', finalSound⟩⟩ :=
    memAllocate_sound sound fitsCall.allocate
  · rw [run] at run'
    cases run'
    exact absurd rfl found
  · obtain ⟨rfl, rfl⟩ := Prod.mk.inj (Option.some.inj (run.symm.trans run'))
    obtain ⟨multiple, atLeast, _⟩ := roundedSize_spec fitsCall.allocate
    have lump := finalSound.isLump (finalSound.held p List.mem_cons_self)
    have alignedP := lump.aligned
    have positive := lump.positive
    refine ⟨by unfold gcHead; omega, ?_⟩
    rw [HasRoom, if_neg (by omega), same, size_eq]
    unfold largeSetNode gcHead at *
    omega

theorem retryLarge_enough (less : size < 2 ^ 31) (large : gcMaxSmallObjectSize ≤ size)
    (aligned : size % 8 = 0) (fits : bytes + gcHead ≤ size) {regions : List Region}
    {layout : Region → List Nat} {allocated : List Nat}
    (sound : Sound ⟨space.large, regions, allocated⟩ layout)
    (answers : Answers space.answers regions (largeSize size))
    (room : space.table.length < gcRegionTableSize)
    (useful : (size + 64) % gcRegionSize ≠ 0)
    (none : memAllocate space.large (largeSize size) = some (space.large, 0)) :
    ∃ taken, space.expandAndRetry .large (largeSize size)
        (fun heap => memAllocate heap (largeSize size)) = some taken ∧
      Enough size bytes (largeResult taken).1 (largeResult taken).2 ∧
      (largeResult taken).2 ≠ .collecting := by
  obtain ⟨_, fitsCall⟩ := largeSize_fits less
  have full : Full space.large regions layout allocated (largeSize size) := by
    obtain ⟨heap, t, run, found_iff⟩ := sound.memAllocate_ne_zero_iff fitsCall.allocate
    obtain ⟨rfl, rfl⟩ := Prod.mk.inj (Option.some.inj (none.symm.trans run))
    intro q isFree
    exact Nat.lt_of_not_le fun enough => found_iff.mpr ⟨q, isFree, enough⟩ rfl
  have retried : Retried space .large regions layout allocated _ _ :=
    expandAndRetry_spec sound fitsCall (memAllocate_finds allocated fitsCall.allocate) full
      answers
  cases retried with
  | refused next _ again _ => exact ⟨_, again, trivial, fun same => by cases same⟩
  | stuck stuck _ =>
      rcases stuck.useless with noRoom | little
      · omega
      · exact absurd ((expansion_useless_iff less aligned).mp little) useful
  | served next grown final added layout' t _ grownSound _ found allocates again =>
      refine ⟨_, again, ?_⟩
      rw [largeResult, if_neg found]
      exact ⟨allocated_enough less large aligned fits grownSound allocates found rfl,
        fun same => by cases same⟩

section

variable (ready : space.Ready size) (less : size < 2 ^ 31) (large : gcMaxSmallObjectSize ≤ size)
  (aligned : size % 8 = 0) (fits : bytes + gcHead ≤ size) (useful : (size + 64) % gcRegionSize ≠ 0)

include ready less large aligned fits useful

theorem Ready.takeLarge :
    (memAllocate space.large (largeSize size) = some (space.large, 0) ∧
        ∃ taken, space.expandAndRetry .large (largeSize size)
            (fun heap => memAllocate heap (largeSize size)) = some taken ∧
          Enough size bytes (largeResult taken).1 (largeResult taken).2 ∧
          (largeResult taken).2 ≠ .collecting) ∨
      ∃ heap p, memAllocate space.large (largeSize size) = some (heap, p) ∧ p ≠ 0 ∧
        Enough size bytes { space with large := heap } (.allocated p) := by
  obtain ⟨regions, layout, allocated, sound, answers⟩ := ready.large
  have room := ready.room
  obtain ⟨heap, p, run, _, ⟨rfl, rfl⟩ | ⟨found, _⟩⟩ :=
    memAllocate_sound sound (largeSize_fits less).2.allocate
  · exact .inl ⟨run, retryLarge_enough less large aligned fits sound answers (by omega) useful
      run⟩
  · exact .inr ⟨heap, p, run, found,
      allocated_enough less large aligned fits sound run found rfl⟩

theorem gcMallocLarge_enough :
    ∃ taken, space.gcMallocLarge size = some taken ∧
      Enough size bytes taken.1 taken.2 := by
  unfold Space.gcMallocLarge
  rcases ready.takeLarge less large aligned fits useful with
    ⟨run, taken, again, enough, _⟩ | ⟨heap, p, run, found, enough⟩
  · rw [run, Option.bind_eq_bind, Option.bind_some]
    dsimp only
    rw [if_pos rfl]
    split
    · exact ⟨largeResult taken, by rw [again]; rfl, enough⟩
    · exact ⟨(space, .collecting), rfl, trivial⟩
  · rw [run, Option.bind_eq_bind, Option.bind_some]
    exact ⟨_, if_neg found, enough⟩

theorem resumeLargeAllocate_enough :
    ∃ taken, space.resumeLargeAllocate size = some taken ∧
      Enough size bytes taken.1 taken.2 ∧ taken.2 ≠ .collecting := by
  unfold Space.resumeLargeAllocate
  rcases ready.takeLarge less large aligned fits useful with
    ⟨run, taken, again, enough, waits⟩ | ⟨heap, p, run, found, enough⟩
  · rw [run, Option.bind_eq_bind, Option.bind_some]
    exact ⟨largeResult taken, by rw [again]; rfl, enough, waits⟩
  · rw [run, Option.bind_eq_bind, Option.bind_some]
    exact ⟨_, if_neg found, enough, fun same => by cases same⟩

end

end

def arrayBytes (elementSize count : Nat) : Nat :=
  sizeofArray + count * elementSize

/-- A call throws an exception or returns an array with room for its header and elements,
whatever the heaps look like; the call may have waited for a garbage collection. -/
structure AllocatesEnough (call resume : Space → Option (Space × ArrayResult))
    (elementSize count : Nat) : Prop where
  returns : ∀ space : Space, space.Ready (arraySize elementSize count) →
    ∃ final result, call space = some (final, .of result) ∧
      Enough (arraySize elementSize count) (arrayBytes elementSize count) final result
  resumes : ∀ before waiting : Space, call before = some (waiting, .of .collecting) →
    ∀ space : Space, space.Ready (arraySize elementSize count) →
      ∃ final result, resume space = some (final, .of result) ∧ result ≠ .collecting ∧
        Enough (arraySize elementSize count) (arrayBytes elementSize count) final result

section

variable {elementSize count : Nat}

theorem newArray_eq (space : Space) (fields : List (Nat × Nat)) :
    space.newArray elementSize fields count =
      (space.allocateArray (arraySize elementSize count)).map
        (describeArray (arraySize elementSize count) fields) := by
  rw [newArray, if_neg (by omega), Int.toNat_natCast]

theorem resumeNewArray_eq (space : Space) (fields : List (Nat × Nat)) :
    space.resumeNewArray elementSize fields count =
      (space.resumeArray (arraySize elementSize count)).map
        (describeArray (arraySize elementSize count) fields) := by
  rw [resumeNewArray, Int.toNat_natCast]

theorem newArray_overflows (excess : 2 ^ 31 ≤ arraySize elementSize count) (space : Space)
    (fields : List (Nat × Nat)) :
    space.newArray elementSize fields count = some (space, .of .outOfMemory) := by
  rw [newArray_eq, allocateArray, if_pos excess]
  rfl

theorem allocatesEnough_of_fits (fits : ArrayFits elementSize count)
    (fields : List (Nat × Nat)) :
    AllocatesEnough (newArray · elementSize fields count)
      (resumeNewArray · elementSize fields count) elementSize count := by
  obtain ⟨low, _, aligned⟩ := le_exactArraySize elementSize count
  have wrapped := arraySize_eq elementSize count
  rcases Nat.lt_or_ge (arraySize elementSize count) (2 ^ 31) with less | excess
  · have unwrapped : arraySize elementSize count = exactArraySize elementSize count := by
      have := fits.unwrapped
      unfold wordSize at *
      omega
    have room : arrayBytes elementSize count + gcHead ≤ arraySize elementSize count := by
      unfold arrayBytes
      omega
    have alignedSize : arraySize elementSize count % 8 = 0 := by omega
    constructor
    · intro space ready
      have allocated : ∃ taken, space.allocateArray (arraySize elementSize count) = some taken ∧
          Enough (arraySize elementSize count) (arrayBytes elementSize count)
            taken.1 taken.2 := by
        rw [allocateArray, if_neg (by omega)]
        split
        · exact gcMallocSmall_enough ready ‹_› alignedSize room
        · have useful := fits.expandable (by omega) (by omega)
          exact gcMallocLarge_enough ready less (by omega) alignedSize room
            (by rwa [unwrapped])
      obtain ⟨taken, run, enough⟩ := allocated
      obtain ⟨final, described, enough⟩ := enough.describeArray fields
      refine ⟨final, taken.2, ?_, enough⟩
      rw [newArray_eq, run, Option.map_some, described]
    · intro _ _ _ space ready
      have allocated : ∃ taken, space.resumeArray (arraySize elementSize count) = some taken ∧
          Enough (arraySize elementSize count) (arrayBytes elementSize count)
            taken.1 taken.2 ∧ taken.2 ≠ .collecting := by
        rw [resumeArray]
        split
        · exact resumeSmallAllocate_enough ready ‹_› alignedSize room
        · have useful := fits.expandable (by omega) (by omega)
          exact resumeLargeAllocate_enough ready less (by omega) alignedSize room
            (by rwa [unwrapped])
      obtain ⟨taken, run, enough, waits⟩ := allocated
      obtain ⟨final, described, enough⟩ := enough.describeArray fields
      refine ⟨final, taken.2, ?_, waits, enough⟩
      rw [resumeNewArray_eq, run, Option.map_some, described]
  · constructor
    · exact fun space _ => ⟨space, .outOfMemory, newArray_overflows excess space fields, trivial⟩
    · intro before waiting waits
      rw [newArray_overflows excess] at waits
      cases waits

/-! Before anything has been allocated, every request is granted. -/

def booted : Space where
  limit := wordSize - 1
  heapSize := wordSize - 1
  table := []
  fixed := memInit fun _ => 0
  large := memInit fun _ => 0
  area := ⟨fun _ => 0, [], 0, 0, 0, 0⟩
  smallSize := 0
  tablePos := 0
  answers := [some gcBlockSize, none]

variable {size : Nat}

theorem booted_answers (less : size < 2 ^ 31) :
    Answers booted.answers [] (largeSize size) where
  answered := ⟨some gcBlockSize, [none], rfl⟩
  fresh := by
    intro start rest answered
    have same : some gcBlockSize = some start :=
      congrArg Prod.fst (Option.some.inj answered)
    obtain rfl := Option.some.inj same
    refine ⟨?_, by simp⟩
    rw [(largeSize_fits less).1]
    unfold regionSize memAlign gcRegionSize gcBlockSize wordSize
    dsimp only
    omega

theorem booted_ready (less : size < 2 ^ 31) : booted.Ready size where
  fixed := by
    refine ⟨[], _, [], empty_sound _, fun start rest answered => ?_⟩
    obtain rfl : [none] = rest := congrArg Prod.snd (Option.some.inj answered)
    exact ⟨⟨none, [], rfl⟩, fun _ _ granted => by cases granted⟩
  large := ⟨[], _, [], empty_sound _, booted_answers less⟩
  room := by decide

theorem booted_inLimit (size : Nat) : booted.overLimit size = false := by
  have below : (size + booted.memorySize) % wordSize < wordSize := Nat.mod_lt _ (by decide)
  rw [overLimit, decide_eq_false_iff_not]
  change ¬wordSize - 1 < _
  omega

theorem booted_large (less : size < 2 ^ 31) (aligned : size % 8 = 0) {taken : Space × Result}
    (run : booted.gcMallocLarge size = some taken) :
    (∃ p, taken.2 = .allocated p) ∧ (size + 64) % gcRegionSize ≠ 0 := by
  obtain ⟨_, fitsCall⟩ := largeSize_fits less
  have sound : Sound ⟨booted.large, [], []⟩ fun _ => [] := empty_sound _
  have noFree : ∀ q, ¬IsFree [] (fun _ => []) [] q := by
    rintro q ⟨⟨region, member, _⟩, _⟩
    exact List.not_mem_nil member
  have full : Full booted.large [] (fun _ => []) [] (largeSize size) :=
    fun q isFree => absurd isFree (noFree q)
  have first : memAllocate booted.large (largeSize size) = some (booted.large, 0) := by
    obtain ⟨heap, t, allocates, found_iff⟩ := sound.memAllocate_ne_zero_iff fitsCall.allocate
    obtain ⟨heap', t', allocates', _, ⟨rfl, rfl⟩ | ⟨found, _⟩⟩ :=
      memAllocate_sound sound fitsCall.allocate
    · exact allocates'
    · obtain ⟨_, rfl⟩ := Prod.mk.inj (Option.some.inj (allocates.symm.trans allocates'))
      obtain ⟨q, isFree, _⟩ := found_iff.mp found
      exact absurd isFree (noFree q)
  have grows : booted.largeRoom size = true := by
    have heapSize : booted.currentHeapSize = 0 := rfl
    have limit : booted.heapSize = wordSize - 1 := rfl
    rw [largeRoom, decide_eq_true_iff, heapSize, limit]
    unfold wordSize
    omega
  rw [gcMallocLarge, first, Option.bind_eq_bind, Option.bind_some] at run
  dsimp only at run
  rw [if_pos rfl, if_pos grows] at run
  have retried : Retried booted .large [] (fun _ => []) [] _ _ :=
    expandAndRetry_spec sound fitsCall (memAllocate_finds [] fitsCall.allocate) full
      (booted_answers less)
  cases retried with
  | refused next refuses _ _ =>
      rcases refuses with excess | ⟨rest, answered⟩
      · rw [booted_inLimit] at excess
        cases excess
      · cases answered
  | stuck _ again =>
      rw [again] at run
      cases run
  | served next grown final added layout' t free _ _ found _ again =>
      rw [again] at run
      obtain rfl := Option.some.inj run
      refine ⟨⟨t, if_neg found⟩, fun useless => free ?_⟩
      exact ⟨full, booted_inLimit _, ⟨gcBlockSize, [none], rfl⟩,
        .inr ((expansion_useless_iff less aligned).mpr useless)⟩

theorem booted_expand : ∃ next start table,
    booted.closeSmall.expandSmallArea = some (next, .region start table) ∧
      next.area.blocks ≠ 0 := by
  have within : ¬booted.closeSmall.overLimit gcRegionSize = true := by
    have inLimit : booted.closeSmall.overLimit gcRegionSize = false := booted_inLimit _
    rw [inLimit]
    exact Bool.false_ne_true
  have granted : ∃ next table, booted.closeSmall.smallGrant =
      some (next, .region gcBlockSize table) := by
    rw [smallGrant, regionAllocate, if_neg within]
    exact ⟨_, _, rfl⟩
  obtain ⟨next, table, granted⟩ := granted
  refine ⟨_, gcBlockSize, table, by rw [Space.expandSmallArea, granted]; rfl, ?_⟩
  exact (by decide : gcBlockSize ≠ 0)

theorem booted_small {taken : Space × Result}
    (run : booted.gcMallocSmall size = some taken) : ∃ p, taken.2 = .allocated p := by
  rcases Nat.eq_zero_or_pos size with rfl | positive
  · obtain rfl := Option.some.inj run
    exact ⟨_, rfl⟩
  · have slow : booted.area.bound < booted.area.cursor + size := by
      change 0 < 0 + size
      omega
    have first : booted.closeSmall.takeSmall size = none := rfl
    have grows : booted.smallRoom = true := by decide
    obtain ⟨next, start, table, expanded, blocks⟩ := booted_expand
    obtain ⟨⟨tmp, area⟩, again⟩ := Small.getSmallChunk_some blocks size
    have took : next.takeSmall size = some (next.finishSmall area tmp size) := by
      rw [takeSmall, again]
      rfl
    rw [gcMallocSmall, if_pos slow, slowSmallAllocate, first] at run
    dsimp only at run
    rw [if_pos grows, expandAndAllocateSmall, expanded, Option.bind_eq_bind,
      Option.bind_some] at run
    dsimp only at run
    rw [took] at run
    obtain rfl := Option.some.inj run
    exact ⟨_, rfl⟩

theorem AllocatesEnough.arrayFits {elementSize count : Nat} {fields : List (Nat × Nat)}
    {resume : Space → Option (Space × ArrayResult)}
    (allocates : AllocatesEnough (newArray · elementSize fields count) resume
      elementSize count) : ArrayFits elementSize count := by
  obtain ⟨low, high, aligned⟩ := le_exactArraySize elementSize count
  have wrapped := arraySize_eq elementSize count
  have called (less : arraySize elementSize count < 2 ^ 31) :
      ∃ (taken : Space × Result) (final : Space) (p : Nat),
        booted.allocateArray (arraySize elementSize count) = some taken ∧
          taken.2 = .allocated p ∧
          final.HasRoom (arraySize elementSize count) (arrayBytes elementSize count) p := by
    obtain ⟨final, result, run, enough⟩ := allocates.returns booted (booted_ready less)
    rw [newArray_eq] at run
    obtain ⟨taken, allocated, described⟩ := Option.map_eq_some_iff.mp run
    have made : ∃ p, taken.2 = .allocated p := by
      rw [allocateArray, if_neg (by omega)] at allocated
      split at allocated
      · exact booted_small allocated
      · have alignedSize : arraySize elementSize count % 8 = 0 := by
          unfold wordSize at wrapped
          omega
        exact (booted_large less alignedSize allocated).1
    obtain ⟨p, made⟩ := made
    obtain ⟨space, result'⟩ := taken
    subst made
    cases described
    exact ⟨_, _, p, allocated, rfl, enough.2⟩
  constructor
  · intro wraps
    refine Nat.le_of_not_lt fun less => ?_
    rw [← wrapped] at less
    obtain ⟨_, final, p, _, _, room⟩ := called less
    unfold HasRoom largeSetNode at room
    unfold arrayBytes sizeofArray gcHead wordSize at *
    split at room <;> omega
  · intro large less useless
    have unwrapped : arraySize elementSize count = exactArraySize elementSize count := by
      unfold wordSize at wrapped
      omega
    rw [← unwrapped] at large less useless
    obtain ⟨taken, _, _, allocated, _⟩ := called less
    rw [allocateArray, if_neg (by omega), if_neg (by omega)] at allocated
    exact (booted_large less (by omega) allocated).2 useless

end

/-- For every element type and length the call throws an exception or returns an array with
room for all its elements, exactly if the size does not wrap and an expansion for it is not
too small. -/
theorem array_allocates_enough_iff (cls : ArrayClass) (count : Nat) :
    (∀ elclass : PrimitiveType,
      AllocatesEnough (newPrimArray · elclass cls count)
          (resumeNewArray · elclass.size (primArrayFields cls count) count) elclass.size count ↔
        ArrayFits elclass.size count) ∧
      (AllocatesEnough (newRefArray · cls count)
          (resumeNewArray · ptrTypeSize (refArrayFields cls count) count) ptrTypeSize count ↔
        ArrayFits ptrTypeSize count) :=
  ⟨fun _ => ⟨AllocatesEnough.arrayFits, fun fits => allocatesEnough_of_fits fits _⟩,
    ⟨AllocatesEnough.arrayFits, fun fits => allocatesEnough_of_fits fits _⟩⟩

/-- An `int` array of 2^30 elements gets the 24 bytes of an empty one. -/
theorem int_array_allocated_too_small :
    ¬∀ (elclass : PrimitiveType) (cls : ArrayClass) (count : Nat), count < 2 ^ 31 →
      AllocatesEnough (newPrimArray · elclass cls count)
        (resumeNewArray · elclass.size (primArrayFields cls count) count) elclass.size
        count := by
  intro always
  have fits : ArrayFits PrimitiveType.int.size (2 ^ 30) :=
    (always .int ⟨0, 0⟩ (2 ^ 30) (by decide)).arrayFits
  exact absurd (fits.unwrapped (by decide)) (by decide)

end Space

end LaTTe.Gc
