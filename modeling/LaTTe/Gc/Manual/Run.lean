import LaTTe.Data.Transition
import LaTTe.Gc.Manual.Contents
import LaTTe.Gc.Manual.Expand

namespace LaTTe.Gc.Manual

open LaTTe.Data

/-- What the manager is asked to do.  `expand` comes with the answer of the
system, and `write` is a caller using its memory. -/
inductive Call where
  | expand (request : Nat) (start : Option Nat)
  | allocate (request : Nat)
  | resize (p request : Nat)
  | free (p : Nat)
  | write (p address value : Nat)
  deriving DecidableEq, Repr

def Call.Legal (manager : Manager) : Call → Prop
  | .expand _ none => True
  | .expand request (some start) =>
      start % gcBlockSize = 0 ∧ start + regionSize request ≤ wordSize ∧
        ∀ other ∈ manager.regions, (newRegion request start).Apart other
  | .allocate _ => True
  | .resize p _ => p = 0 ∨ p ∈ manager.allocated
  | .free p => p = 0 ∨ p ∈ manager.allocated
  | .write p address _ =>
      p ∈ manager.allocated ∧ p ≤ address ∧
        address + 4 ≤ p + size manager.heap.memory p - gcHead

instance (region other : Region) : Decidable (region.Apart other) :=
  inferInstanceAs (Decidable (_ ∨ _))

instance (manager : Manager) : (call : Call) → Decidable (call.Legal manager)
  | .expand _ none => inferInstanceAs (Decidable True)
  | .expand _ (some _) => inferInstanceAs (Decidable (_ ∧ _ ∧ ∀ _ ∈ _, _))
  | .allocate _ => inferInstanceAs (Decidable True)
  | .resize _ _ => inferInstanceAs (Decidable (_ ∨ _))
  | .free _ => inferInstanceAs (Decidable (_ ∨ _))
  | .write _ _ _ => inferInstanceAs (Decidable (_ ∧ _ ∧ _))

def Call.Fits : Call → Prop
  | .expand request _ => request + 6 * memAlign + (gcRegionSize - 1) < wordSize
  | .allocate request => request + memAlign + gcHead + (2 * memAlign - 1) < wordSize
  | .resize _ request => request + memAlign + gcHead + (2 * memAlign - 1) < wordSize
  | .free _ => True
  | .write _ _ _ => True

instance : (call : Call) → Decidable call.Fits
  | .expand _ _ => inferInstanceAs (Decidable (_ < _))
  | .allocate _ => inferInstanceAs (Decidable (_ < _))
  | .resize _ _ => inferInstanceAs (Decidable (_ < _))
  | .free _ => inferInstanceAs (Decidable True)
  | .write _ _ _ => inferInstanceAs (Decidable True)

def exec (manager : Manager) : Call → Option Manager
  | .expand request start => do
      let (heap, _) ← memExpand manager.heap request start
      some { manager with
        heap := heap
        regions := (start.map (newRegion request)).toList ++ manager.regions }
  | .allocate request => do
      let (heap, p) ← memAllocate manager.heap request
      some { manager with
        heap := heap
        allocated := if p = 0 then manager.allocated else p :: manager.allocated }
  | .resize p request => do
      let (heap, t) ← memResize manager.heap p request
      some { manager with
        heap := heap
        allocated :=
          if t = 0 then manager.allocated
          else t :: manager.allocated.filter (· ≠ p) }
  | .free p => do
      let heap ← memFree manager.heap p
      some { manager with
        heap := heap
        allocated := manager.allocated.filter (· ≠ p) }
  | .write _ address value =>
      some { manager with heap := manager.heap.setMemory address value }

def Empty (manager : Manager) : Prop :=
  ∃ memory, manager = ⟨memInit memory, [], []⟩

def Step (allowed : Call → Prop) (manager next : Manager) : Prop :=
  ∃ call, call.Legal manager ∧ allowed call ∧ exec manager call = some next

def run (calls : List Call) (manager : Manager) : Option Manager :=
  calls.foldlM
    (fun manager call => if call.Legal manager then exec manager call else none)
    manager

theorem reachable_run {allowed : Call → Prop} {calls : List Call}
    {manager final : Manager}
    (reached : Reachable Empty (Step allowed) manager)
    (permitted : ∀ call ∈ calls, allowed call)
    (ran : run calls manager = some final) :
    Reachable Empty (Step allowed) final := by
  induction calls generalizing manager with
  | nil =>
      cases ran
      exact reached
  | cons call rest ih =>
      rw [run, List.foldlM_cons] at ran
      split at ran
      · rename_i legal
        cases result : exec manager call with
        | none => simp [result] at ran
        | some next =>
            rw [result] at ran
            exact ih (reached.tail ⟨call, legal, permitted call (by simp), result⟩)
              (fun other member => permitted other (by simp [member])) ran
      · simp at ran

def InPayload (memory : Memory) (p address : Nat) : Prop :=
  p ≤ address ∧ address < p + size memory p - gcHead

structure Represents (manager : Manager) (layout : Region → List Nat)
    (chain : Nat → List Nat) : Prop where
  tiled : ∀ region ∈ manager.regions,
    Tiles (size manager.heap.memory) region.first (layout region) region.last
  ended : ∀ region ∈ manager.regions,
    size manager.heap.memory region.last = memAlign ∧
      prevInUse manager.heap.memory (nextLump manager.heap.memory region.last) = true
  firstFlag : ∀ region ∈ manager.regions,
    prevInUse manager.heap.memory region.first = true
  flags : ∀ region ∈ manager.regions, ∀ p ∈ layout region,
    prevInUse manager.heap.memory (nextLump manager.heap.memory p) =
      decide (p ∈ manager.allocated)
  footers : ∀ region ∈ manager.regions, ∀ p ∈ layout region,
    p ∉ manager.allocated →
      manager.heap.memory (footer p (size manager.heap.memory p)) =
        size manager.heap.memory p
  coalesced : ∀ region ∈ manager.regions, ∀ p ∈ layout region,
    nextLump manager.heap.memory p ∈ layout region →
      p ∈ manager.allocated ∨ nextLump manager.heap.memory p ∈ manager.allocated
  held : ∀ p ∈ manager.allocated, HasLump manager.regions layout p
  listed : Listed manager.heap.memory manager.heap.lists chain
  onList : ∀ p, IsFree manager.regions layout manager.allocated p ↔
    ∃ cls < sizeClasses, p ∈ chain cls
  disjoint : ∀ p ∈ manager.allocated, ∀ q ∈ manager.allocated, ∀ address,
    InPayload manager.heap.memory p address →
      InPayload manager.heap.memory q address → p = q

def RepresentationInvariant (manager : Manager) : Prop :=
  ∃ layout chain, Represents manager layout chain

theorem Segment.coalesced {memory : Memory} {allocated : List Nat} {entry exit : Bool}
    {first stop p : Nat} {lumps : List Nat}
    (segment : Segment memory allocated entry first lumps exit stop)
    (member : p ∈ lumps) (memberNext : nextLump memory p ∈ lumps) :
    p ∈ allocated ∨ nextLump memory p ∈ allocated := by
  obtain ⟨left, right, rfl⟩ := List.append_of_mem member
  obtain ⟨flag, start, before, rfl, tags, after⟩ := Segment.append_iff.mp segment
  have bounds := before.tiles.le
  have positive := tags.positive
  -- the next lump is the first one behind
  have inRight : nextLump memory p ∈ right := by
    rcases List.mem_append.mp memberNext with inLeft | inRest
    · have := before.tiles.mem_bounds inLeft
      unfold nextLump at this
      omega
    · rcases List.mem_cons.mp inRest with same | inRight
      · unfold nextLump at same
        omega
      · exact inRight
  cases right with
  | nil => simp at inRight
  | cons next rest =>
      obtain ⟨rfl, tagsNext, _⟩ := after
      by_contra neither
      rw [not_or] at neither
      have := (tagsNext.free neither.2).1
      rw [decide_eq_false neither.1] at this
      exact Bool.false_ne_true this

theorem Sound.represents {manager : Manager} {layout : Region → List Nat}
    (sound : Sound manager layout) : RepresentationInvariant manager := by
  obtain ⟨heap, regions, allocated⟩ := manager
  obtain ⟨chain, listed, onList⟩ := sound.lists
  have segments : ∀ region ∈ regions, ∃ exit, Segment heap.memory allocated true
      region.first (layout region) exit region.last :=
    fun region inRegions => (sound.regions region inRegions).tagged
  refine ⟨layout, chain, ?_, ?_, ?_, ?_, ?_, ?_, sound.held, listed, onList, ?_⟩
  · intro region inRegions
    obtain ⟨exit, segment⟩ := segments region inRegions
    exact segment.tiles
  · exact fun region inRegions => ⟨(sound.regions region inRegions).dummy,
      (sound.regions region inRegions).ending⟩
  · exact fun region inRegions => (sound.regions region inRegions).firstInUse
  · intro region inRegions p member
    obtain ⟨exit, segment⟩ := segments region inRegions
    obtain ⟨entry, tags⟩ := segment.tagged_of_mem member
    exact tags.flag
  · intro region inRegions p member notHeld
    obtain ⟨exit, segment⟩ := segments region inRegions
    obtain ⟨entry, tags⟩ := segment.tagged_of_mem member
    exact (tags.free notHeld).2
  · intro region inRegions p member memberNext
    obtain ⟨exit, segment⟩ := segments region inRegions
    exact segment.coalesced member memberNext
  · intro p heldP q heldQ address inP inQ
    by_contra different
    have apart := sound.disjoint (sound.held p heldP) (sound.held q heldQ) different
    unfold InPayload at inP inQ
    dsimp only at inP inQ
    omega

theorem empty_sound (memory : Memory) : Sound ⟨memInit memory, [], []⟩ (fun _ => []) where
  regions := by simp
  apart := by simp
  held := by simp
  lists := by
    refine ⟨fun _ => [], ⟨?_, ?_, ?_, ?_, ?_, ?_⟩, ?_⟩
    · intro cls below
      refine ⟨0, rfl, ?_⟩
      simp [memInit, Nat.ne_of_lt below]
    · simp
    · simp
    · simp
    · simp
    · simp [memInit, sizeClassSentinel, wordSize]
    · simp [IsFree, HasLump]

section

variable {heap : GcHeap} {regions : List Region} {allocated : List Nat}
  {layout : Region → List Nat}

theorem Sound.drop_zero (sound : Sound ⟨heap, regions, allocated⟩ layout) :
    Sound ⟨heap, regions, allocated.filter (· ≠ 0)⟩ layout := by
  apply sound.allocated_congr
  intro q
  simp only [List.mem_filter, decide_eq_true_eq, and_iff_left_iff_imp]
  rintro held rfl
  have := (sound.isLump (sound.held 0 held)).positive
  omega

/-- Every call that does not wrap returns and keeps the heap consistent. -/
theorem exec_sound {manager : Manager} (sound : Sound manager layout) {call : Call}
    (legal : call.Legal manager) (fits : call.Fits) :
    ∃ next layout', exec manager call = some next ∧ Sound next layout' := by
  obtain ⟨heap, regions, allocated⟩ := manager
  cases call with
  | expand request start =>
      cases start with
      | none => exact ⟨_, layout, rfl, sound⟩
      | some start =>
          obtain ⟨aligned, inRange, fresh⟩ := legal
          obtain ⟨final, layout', run, expanded, _⟩ :=
            memExpand_sound sound fits aligned inRange fresh
          exact ⟨_, layout', by simp [exec, run], expanded⟩
  | allocate request =>
      obtain ⟨final, t, run, _, ⟨rfl, rfl⟩ | ⟨found, _, _, _, layout', result⟩⟩ :=
        memAllocate_sound sound fits
      · exact ⟨_, layout, by simp [exec, run], sound⟩
      · exact ⟨_, layout', by simp [exec, run, found], result⟩
  | resize p request =>
      rcases legal with rfl | isHeld
      · obtain ⟨final, t, run, _, ⟨rfl, rfl⟩ | ⟨found, _, _, _, layout', result⟩⟩ :=
          memAllocate_sound sound.drop_zero fits
        · exact ⟨_, layout, by simp [exec, memResize, run], sound⟩
        · exact ⟨_, layout', by simp [exec, memResize, run, found], result⟩
      · obtain ⟨final, t, run, _, ⟨rfl, rfl⟩ | ⟨found, _, layout', result⟩⟩ :=
          memResize_spec sound isHeld fits
        · exact ⟨_, layout, by simp [exec, run], sound⟩
        · exact ⟨_, layout', by simp [exec, run, found], result⟩
  | free p =>
      rcases legal with rfl | isHeld
      · exact ⟨_, layout, by simp [exec, memFree], sound.drop_zero⟩
      · obtain ⟨final, layout', run, result, _⟩ := memFree_sound sound isHeld
        exact ⟨_, layout', by simp [exec, run], result⟩
  | write p address value =>
      obtain ⟨isHeld, low, high⟩ := legal
      refine ⟨_, layout, rfl, sound.write isHeld ?_ rfl⟩
      intro other outside
      apply Memory.store_other
      unfold gcHead at high
      dsimp only at high
      omega

theorem reachable_sound {manager : Manager}
    (reached : Reachable Empty (Step Call.Fits) manager) :
    ∃ layout, Sound manager layout := by
  apply reached.invariant
  · rintro state ⟨memory, rfl⟩
    exact ⟨_, empty_sound memory⟩
  · rintro state next ⟨layout, sound⟩ ⟨call, legal, fits, run⟩
    obtain ⟨other, layout', same, result⟩ := exec_sound sound legal fits
    rw [run] at same
    cases same
    exact ⟨layout', result⟩

/-- In every run whose sizes do not wrap the representation invariant holds in
each state, and each further call of that kind returns. -/
theorem representation_invariant_unless_wrapped (manager : Manager)
    (reached : Reachable Empty (Step Call.Fits) manager) :
    RepresentationInvariant manager ∧
      ∀ call : Call, call.Legal manager → call.Fits →
        ∃ next, exec manager call = some next ∧ RepresentationInvariant next := by
  obtain ⟨layout, sound⟩ := reachable_sound reached
  refine ⟨sound.represents, fun call legal fits => ?_⟩
  obtain ⟨next, layout', run, result⟩ := exec_sound sound legal fits
  exact ⟨next, run, result.represents⟩

end

private theorem empty_reachable (allowed : Call → Prop) :
    Reachable Empty (Step allowed) ⟨memInit fun _ => 0, [], []⟩ :=
  .start ⟨_, rfl⟩

theorem representation_invariant_unless_wrapped_example :
    ∃ manager, run [.expand 100 (some 4096), .allocate 40, .allocate 20, .free 4112,
        .resize 4176 500] ⟨memInit fun _ => 0, [], []⟩ = some manager ∧
      manager.allocated = [4208] ∧ RepresentationInvariant manager := by
  have ran : ((run [.expand 100 (some 4096), .allocate 40, .allocate 20, .free 4112,
      .resize 4176 500] ⟨memInit fun _ => 0, [], []⟩).map (·.allocated)) =
      some [4208] := by decide +kernel
  obtain ⟨manager, run_eq, held⟩ := Option.map_eq_some_iff.mp ran
  refine ⟨manager, run_eq, held,
    (representation_invariant_unless_wrapped manager
      (reachable_run (empty_reachable _) ?_ run_eq)).1⟩
  decide

/-- A size that wraps to sixteen bytes lets `mem_resize` copy over the next
header. -/
theorem representation_invariant_broken_by_wrapped_resize :
    ¬ ∀ manager, Reachable Empty (Step fun _ => True) manager →
      RepresentationInvariant manager := by
  intro always
  have ran : ((run [.expand 0 (some 4096), .allocate 40, .resize 4112 (2 ^ 32 - 8)]
      ⟨memInit fun _ => 0, [], []⟩).map fun manager =>
        (manager.regions, size manager.heap.memory 4112,
          size manager.heap.memory 4192)) =
      some ([⟨4096, 2101248⟩], 80, 0) := by decide +kernel
  obtain ⟨manager, run_eq, facts⟩ := Option.map_eq_some_iff.mp ran
  simp only [Prod.mk.injEq] at facts
  obtain ⟨regions_eq, sizeFirst, sizeSecond⟩ := facts
  obtain ⟨layout, chain, represents⟩ := always manager
    (reachable_run (empty_reachable _) (fun _ _ => trivial) run_eq)
  have tiled := represents.tiled ⟨4096, 2101248⟩ (by simp [regions_eq])
  cases lumps : layout ⟨4096, 2101248⟩ with
  | nil =>
      rw [lumps] at tiled
      exact absurd (Tiles.nil_iff.mp tiled) (by decide)
  | cons first rest =>
      rw [lumps] at tiled
      obtain ⟨rfl, _, tiled⟩ := tiled
      change Tiles _ (4112 + size manager.heap.memory 4112) rest 2101216 at tiled
      rw [sizeFirst] at tiled
      cases rest with
      | nil => exact absurd (Tiles.nil_iff.mp tiled) (by decide)
      | cons second rest =>
          obtain ⟨rfl, positive, _⟩ := tiled
          change 0 < size manager.heap.memory 4192 at positive
          omega

end LaTTe.Gc.Manual
