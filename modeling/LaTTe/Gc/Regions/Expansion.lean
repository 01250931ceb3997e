import LaTTe.Gc.Manual.Requests
import LaTTe.Gc.Regions.Space

namespace LaTTe.Gc

open LaTTe.Data Manual

namespace Space

/-! What comes of expanding a heap of the manual memory manager and allocating again. -/

structure Answers (answers : List (Option Nat)) (regions : List Region) (request : Nat) :
    Prop where
  answered : ∃ answer rest, askSystem answers = some (answer, rest)
  fresh : ∀ start rest, askSystem answers = some (some start, rest) →
    start + regionSize request ≤ wordSize ∧
      ∀ other ∈ regions, (newRegion request start).Apart other

def Full (heap : GcHeap) (regions : List Region) (layout : Region → List Nat)
    (allocated : List Nat) (request : Nat) : Prop :=
  ∀ q, IsFree regions layout allocated q → Gc.size heap.memory q < roundedSize request

def Refuses (space : Space) (request : Nat) : Prop :=
  space.overLimit (regionSize request) = true ∨
    ∃ rest, askSystem space.answers = some (none, rest)

/-- A region is granted that is of no use: there is no room for it in the region table, or
what it adds to the heap is too small for the request. -/
structure Stuck (space : Space) (kind : ManualHeap) (regions : List Region)
    (layout : Region → List Nat) (allocated : List Nat) (request : Nat) : Prop where
  full : Full (space.heap kind) regions layout allocated request
  inLimit : space.overLimit (regionSize request) = false
  granted : ∃ start rest, askSystem space.answers = some (some start, rest)
  useless : gcRegionTableSize ≤ space.table.length ∨
    (request + 6 * memAlign) % gcRegionSize = 0 ∨
      gcRegionSize < (request + 6 * memAlign) % gcRegionSize + memAlign + gcHead

@[simp] theorem heap_setHeap (space : Space) (kind : ManualHeap) (heap : GcHeap) :
    (space.setHeap kind heap).heap kind = heap := by
  cases kind <;> rfl

section

variable {space : Space} {kind : ManualHeap} {regions : List Region} {allocated : List Nat}
  {layout : Region → List Nat} {request : Nat}

theorem askSystem_aligned {answers rest : List (Option Nat)} {start : Nat}
    (answered : askSystem answers = some (some start, rest)) : start % gcBlockSize = 0 := by
  induction answers with
  | nil => cases answered
  | cons answer answers ih =>
      cases answer with
      | none => cases answered
      | some region =>
          rw [askSystem] at answered
          split at answered
          · cases answered
            assumption
          · exact ih answered

theorem regionAllocate_refused (type : RegionType) (refuses : space.Refuses request) :
    ∃ answers, space.regionAllocate (regionSize request) type =
      some ({ space with answers := answers }, none) := by
  unfold regionAllocate
  split
  · exact ⟨space.answers, rfl⟩
  · rename_i within
    obtain ⟨rest, answered⟩ := refuses.resolve_left within
    exact ⟨rest, by rw [answered]⟩

theorem memExpand_refused (kind : ManualHeap) (refuses : space.Refuses request) :
    ∃ next, space.memExpand kind request = some (next, -1) ∧
      next.heap kind = space.heap kind := by
  obtain ⟨answers, refused⟩ := regionAllocate_refused kind.type refuses
  refine ⟨({ space with answers := answers } : Space).setHeap kind (space.heap kind), ?_,
    heap_setHeap _ _ _⟩
  rw [Space.memExpand, refused]
  cases kind <;> rfl

theorem memExpand_granted (inLimit : space.overLimit (regionSize request) = false)
    {start : Nat} {rest : List (Option Nat)}
    (granted : askSystem space.answers = some (some start, rest))
    {grown : GcHeap} (expands : Manual.memExpand (space.heap kind) request (some start) =
      some (grown, 0)) :
    (space.table.length < gcRegionTableSize → ∃ next,
        space.memExpand kind request = some (next, 0) ∧ next.heap kind = grown) ∧
      (gcRegionTableSize ≤ space.table.length → space.memExpand kind request = none) := by
  have within : ¬space.overLimit (regionSize request) = true := by
    rw [inLimit]
    exact Bool.false_ne_true
  constructor
  · intro room
    have obtained : ∃ next, space.regionAllocate (regionSize request) kind.type =
        some (next, some start) ∧ next.heap kind = space.heap kind := by
      rw [regionAllocate, if_neg within, granted]
      refine ⟨_, if_pos room, ?_⟩
      cases kind <;> rfl
    obtain ⟨next, obtained, same⟩ := obtained
    refine ⟨next.setHeap kind grown, ?_, heap_setHeap _ _ _⟩
    rw [← same] at expands
    rw [Space.memExpand, obtained, Option.bind_eq_bind, Option.bind_some]
    dsimp only
    rw [expands]
    rfl
  · intro full
    have nothing : space.regionAllocate (regionSize request) kind.type = none := by
      rw [regionAllocate, if_neg within, granted]
      exact if_neg (Nat.not_lt_of_le full)
    rw [Space.memExpand, nothing]
    rfl

/-- An allocator that finds a lump exactly if there is one that is large enough. -/
def Finds (allocate : Allocator) (allocated : List Nat) (request : Nat) : Prop :=
  ∀ heap regions layout, Sound ⟨heap, regions, allocated⟩ layout →
    ∃ final t, allocate heap = some (final, t) ∧
      (t ≠ 0 ↔ ∃ q, IsFree regions layout allocated q ∧
        roundedSize request ≤ Gc.size heap.memory q)

theorem memAllocate_finds (allocated : List Nat) (fits : request + 27 < wordSize) :
    Finds (fun heap => memAllocate heap request) allocated request := by
  intro heap regions layout sound
  exact sound.memAllocate_ne_zero_iff fits

inductive Retried (space : Space) (kind : ManualHeap) (regions : List Region)
    (layout : Region → List Nat) (allocated : List Nat) (request : Nat)
    (allocate : Allocator) : Prop where
  | refused (next : Space) (refuses : space.Refuses request)
      (run : space.expandAndRetry kind request allocate = some (next, 0))
      (same : next.heap kind = space.heap kind)
  | stuck (stuck : space.Stuck kind regions layout allocated request)
      (run : space.expandAndRetry kind request allocate = none)
  | served (next : Space) (grown final : GcHeap) (added : Region)
      (layout' : Region → List Nat) (t : Nat)
      (free : ¬space.Stuck kind regions layout allocated request)
      (sound : Sound ⟨grown, added :: regions, allocated⟩ layout')
      (keeps : ∀ q ∈ allocated, Untouched (space.heap kind).memory grown.memory q)
      (found : t ≠ 0) (allocates : allocate grown = some (final, t))
      (run : space.expandAndRetry kind request allocate =
        some (next.setHeap kind final, t))

theorem not_stuck_of_refuses (refuses : space.Refuses request) :
    ¬space.Stuck kind regions layout allocated request := by
  intro stuck
  rcases refuses with excess | ⟨rest, answered⟩
  · rw [stuck.inLimit] at excess
    cases excess
  · obtain ⟨start, rest', granted⟩ := stuck.granted
    rw [answered] at granted
    cases granted

theorem expandAndRetry_refused (allocate : Allocator) (refuses : space.Refuses request) :
    Retried space kind regions layout allocated request allocate := by
  obtain ⟨next, expanded, same⟩ := memExpand_refused kind refuses
  apply Retried.refused next refuses ?_ same
  rw [expandAndRetry, expanded]
  rfl

theorem expandAndRetry_granted {allocate : Allocator}
    (sound : Sound ⟨space.heap kind, regions, allocated⟩ layout)
    (fits : (Call.expand request none).Fits) (finds : Finds allocate allocated request)
    (full : Full (space.heap kind) regions layout allocated request)
    (inLimit : space.overLimit (regionSize request) = false)
    {start : Nat} {rest : List (Option Nat)}
    (granted : askSystem space.answers = some (some start, rest))
    (inRange : start + regionSize request ≤ wordSize)
    (fresh : ∀ other ∈ regions, (newRegion request start).Apart other) :
    Retried space kind regions layout allocated request allocate := by
  obtain ⟨grown, layout', expands, grownSound, isFree_iff, newSize, sameSize, keeps⟩ :=
    memExpand_sound sound fits (askSystem_aligned granted) inRange fresh
  obtain ⟨expandsSpace, nothing⟩ := memExpand_granted inLimit granted expands
  rcases Nat.lt_or_ge space.table.length gcRegionTableSize with room | noRoom
  · obtain ⟨next, expanded, same⟩ := expandsSpace room
    obtain ⟨final, t, allocates, found_iff⟩ := finds grown _ layout' grownSound
    have enough_iff : t ≠ 0 ↔ (request + 6 * memAlign) % gcRegionSize ≠ 0 ∧
        (request + 6 * memAlign) % gcRegionSize + memAlign + gcHead ≤ gcRegionSize := by
      rw [found_iff, ← roundedSize_le_iff fits, ← newSize]
      constructor
      · rintro ⟨q, isFree, enough⟩
        rcases (isFree_iff q).mp isFree with rfl | old
        · exact enough
        · rw [sameSize q old] at enough
          exact absurd enough (Nat.not_le_of_lt (full q old))
      · exact fun enough => ⟨_, (isFree_iff _).mpr (.inl rfl), enough⟩
    have retries : space.expandAndRetry kind request allocate =
        if t = 0 then none else some (next.setHeap kind final, t) := by
      rw [expandAndRetry, expanded, Option.bind_eq_bind, Option.bind_some]
      dsimp only
      rw [if_neg (by decide), same, allocates]
    rcases Nat.eq_zero_or_pos t with rfl | positive
    · refine .stuck ⟨full, inLimit, ⟨start, rest, granted⟩, .inr ?_⟩ (by rw [retries]; rfl)
      have useless := mt enough_iff.mpr (not_not.mpr rfl)
      omega
    · have found : t ≠ 0 := by omega
      refine .served next grown final _ layout' t (fun stuck => ?_) grownSound keeps found
        allocates (by rw [retries, if_neg found])
      have useful := enough_iff.mp found
      rcases stuck.useless with noRoom | exactly | little
      · omega
      · exact useful.1 exactly
      · omega
  · refine .stuck ⟨full, inLimit, ⟨start, rest, granted⟩, .inl noRoom⟩ ?_
    rw [expandAndRetry, nothing noRoom]
    rfl

theorem expandAndRetry_spec {allocate : Allocator}
    (sound : Sound ⟨space.heap kind, regions, allocated⟩ layout)
    (fits : (Call.expand request none).Fits) (finds : Finds allocate allocated request)
    (full : Full (space.heap kind) regions layout allocated request)
    (answers : Answers space.answers regions request) :
    Retried space kind regions layout allocated request allocate := by
  obtain ⟨answer, rest, answered⟩ := answers.answered
  cases excess : space.overLimit (regionSize request) with
  | true => exact expandAndRetry_refused allocate (.inl excess)
  | false =>
      cases answer with
      | none => exact expandAndRetry_refused allocate (.inr ⟨rest, answered⟩)
      | some start =>
          obtain ⟨inRange, fresh⟩ := answers.fresh start rest answered
          exact expandAndRetry_granted sound fits finds full excess answered inRange fresh

end

end Space

end LaTTe.Gc
