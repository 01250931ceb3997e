import LaTTe.Gc.Regions.Expansion

namespace LaTTe.Gc

open LaTTe.Data Manual

namespace Space

/-! `gc_realloc_fixed`. -/

section

variable {space : Space} {regions : List Region} {allocated : List Nat}
  {layout : Region → List Nat} {p request : Nat}

/-- What `gc_realloc_fixed` is for: the block is moved, or an exception is thrown because
there is no memory and the fixed heap is as it was. -/
def Reallocates (space : Space) (regions : List Region) (layout : Region → List Nat)
    (allocated : List Nat) (p request : Nat) : Prop :=
  ∃ final t, space.gcReallocFixed p request = some (final, t) ∧
    (t = 0 ∧ final.fixed = space.fixed ∧ Full space.fixed regions layout allocated request ∧
        space.Refuses request ∨
      t ≠ 0 ∧ Moved space.fixed final.fixed allocated p request t ∧
        ∃ added layout',
          Sound ⟨final.fixed, added ++ regions, t :: allocated.filter (· ≠ p)⟩ layout' ∧
          ∃! r, IsFree (added ++ regions) layout' (t :: allocated.filter (· ≠ p)) r ∧
            r ≤ p ∧ p < r + Gc.size final.fixed.memory r)

theorem Reallocates.of_moved {final : Space} {grown heap : GcHeap} {added : List Region}
    {layout' : Region → List Nat} {t : Nat}
    (sound : Sound ⟨space.fixed, regions, allocated⟩ layout) (isHeld : p ∈ allocated)
    (keeps : ∀ q ∈ allocated, Untouched space.fixed.memory grown.memory q)
    (run : space.gcReallocFixed p request = some (final.markFixed t, t))
    (same : final.fixed = heap) (found : t ≠ 0)
    (moved : Moved grown heap allocated p request t)
    (finalSound : Sound ⟨heap, added ++ regions, t :: allocated.filter (· ≠ p)⟩ layout') :
    space.Reallocates regions layout allocated p request := by
  subst same
  have movedMarked := (moved.after sound isHeld keeps).mark finalSound
  have marked := finalSound.mark List.mem_cons_self
  exact ⟨final.markFixed t, t, run, .inr ⟨found, movedMarked, added, layout', marked,
    movedMarked.given_back sound isHeld marked⟩⟩

theorem gcReallocFixed_full (resized : memResize space.fixed p request = some (space.fixed, 0)) :
    space.gcReallocFixed p request =
      (space.expandAndRetry .fixed request fun heap => memResize heap p request).bind
        fun (next, t) => some (if t = 0 then (next, t) else (next.markFixed t, t)) := by
  rw [gcReallocFixed, takeFixed, resized, Option.bind_eq_bind, Option.bind_some]
  exact if_pos rfl

theorem memResize_finds (isHeld : p ∈ allocated) (fits : request + 27 < wordSize) :
    Finds (fun heap => memResize heap p request) allocated request := by
  intro heap regions layout sound
  obtain ⟨final, t, resized, found_iff, _⟩ := memResize_spec sound isHeld fits
  exact ⟨final, t, resized, found_iff⟩

theorem gcReallocFixed_spec (sound : Sound ⟨space.fixed, regions, allocated⟩ layout)
    (isHeld : p ∈ allocated) (fits : (Call.expand request none).Fits)
    (answers : Answers space.answers regions request) :
    space.Reallocates regions layout allocated p request ∧
        ¬space.Stuck .fixed regions layout allocated request ∨
      space.gcReallocFixed p request = none ∧
        space.Stuck .fixed regions layout allocated request := by
  obtain ⟨heap, t, resized, found_iff, ⟨rfl, rfl⟩ | ⟨found, moved, layout', movedSound⟩⟩ :=
    memResize_spec sound isHeld fits.allocate
  · have full : Full space.fixed regions layout allocated request := by
      intro q isFree
      refine Nat.lt_of_not_le fun enough => ?_
      exact found_iff.mpr ⟨q, isFree, enough⟩ rfl
    have again := gcReallocFixed_full resized
    have retried : Retried space .fixed regions layout allocated request _ :=
      expandAndRetry_spec sound fits (memResize_finds isHeld fits.allocate) full answers
    cases retried with
    | refused next refuses run same =>
        rw [run] at again
        exact .inl ⟨⟨next, 0, again, .inl ⟨rfl, same, full, refuses⟩⟩,
          not_stuck_of_refuses refuses⟩
    | stuck stuck run =>
        rw [run] at again
        exact .inr ⟨again, stuck⟩
    | served next grown final added layout' t free grownSound keeps found allocates run =>
        obtain ⟨final', t', resized', _, outcome⟩ :=
          memResize_spec grownSound isHeld fits.allocate
        obtain ⟨rfl, rfl⟩ := Prod.mk.inj (Option.some.inj (allocates.symm.trans resized'))
        obtain ⟨_, moved, layout'', movedSound⟩ := outcome.resolve_left fun none => found none.1
        rw [run, Option.bind_some] at again
        have finalSound : Sound ⟨final, [added] ++ regions,
            t :: allocated.filter (· ≠ p)⟩ layout'' := movedSound
        exact .inl ⟨Reallocates.of_moved sound isHeld keeps
          (again.trans (congrArg some (if_neg found))) rfl found moved finalSound, free⟩
  · refine .inl ⟨?_, fun stuck => ?_⟩
    · let final : Space := { space with fixed := heap }
      have run : space.gcReallocFixed p request = some (final.markFixed t, t) := by
        rw [gcReallocFixed, takeFixed, resized, Option.bind_eq_bind, Option.bind_some]
        exact if_neg found
      have finalSound : Sound ⟨heap, [] ++ regions, t :: allocated.filter (· ≠ p)⟩ layout' :=
        movedSound
      exact Reallocates.of_moved sound isHeld (fun q _ => .refl _ q) run rfl found moved
        finalSound
    · obtain ⟨q, isFree, enough⟩ := found_iff.mp found
      exact absurd enough (Nat.not_le_of_lt (stuck.full q isFree))

end

/-- A held block is moved with its contents and given back once, or the fixed heap stays as it
is and an exception is thrown, exactly if no region is granted that is of no use. -/
theorem gc_realloc_fixed_keeps_contents_iff (space : Space) (regions : List Region)
    (layout : Region → List Nat) (allocated : List Nat) (p request : Nat)
    (sound : Sound ⟨space.fixed, regions, allocated⟩ layout) (isHeld : p ∈ allocated)
    (fits : (Call.expand request none).Fits) (answers : Answers space.answers regions request) :
    space.Reallocates regions layout allocated p request ↔
      ¬space.Stuck .fixed regions layout allocated request := by
  rcases gcReallocFixed_spec sound isHeld fits answers with ⟨done, free⟩ | ⟨nothing, stuck⟩
  · exact iff_of_true done free
  · refine iff_of_false ?_ (not_not.mpr stuck)
    rintro ⟨final, t, run, _⟩
    rw [nothing] at run
    cases run

/-! A fixed heap of one region in which one block is in use. -/

private def blockCalls : List Call :=
  [.expand 100 (some 4096), .allocate 40]

private def blockSpace (fixed : GcHeap) : Space where
  limit := 2 ^ 30
  heapSize := 2 ^ 23
  table := [⟨4096, 2101248, .fixed⟩]
  fixed := fixed
  large := memInit fun _ => 0
  area := ⟨fun _ => 0, [], 0, 0, 0, 0⟩
  smallSize := 0
  tablePos := 0
  answers := [some 16777216]

private theorem blockSpace_answers (fixed : GcHeap) {request : Nat}
    (small : regionSize request ≤ 2 ^ 24) :
    Answers (blockSpace fixed).answers [⟨4096, 2101248⟩] request where
  answered := ⟨some 16777216, [], rfl⟩
  fresh := by
    intro start rest granted
    obtain ⟨rfl, rfl⟩ : 16777216 = start ∧ [] = rest := by
      have same := Option.some.inj granted
      exact ⟨Option.some.inj (congrArg Prod.fst same), congrArg Prod.snd same⟩
    refine ⟨?_, ?_⟩
    · unfold wordSize
      omega
    · intro other inRegions
      obtain rfl := List.mem_singleton.mp inRegions
      have above : 2101248 ≤ 16777216 := by decide
      exact .inr above

private theorem blockManager : ∃ manager layout,
    run blockCalls ⟨memInit fun _ => 0, [], []⟩ = some manager ∧ Sound manager layout ∧
      manager.regions = [⟨4096, 2101248⟩] ∧ manager.allocated = [4112] := by
  have ran : ((run blockCalls ⟨memInit fun _ => 0, [], []⟩).map fun manager =>
      (manager.regions, manager.allocated)) = some ([⟨4096, 2101248⟩], [4112]) := by
    decide +kernel
  obtain ⟨manager, run_eq, facts⟩ := Option.map_eq_some_iff.mp ran
  obtain ⟨layout, sound⟩ :=
    reachable_sound (reachable_run (.start ⟨_, rfl⟩) (by decide) run_eq)
  exact ⟨manager, layout, run_eq, sound, congrArg Prod.fst facts, congrArg Prod.snd facts⟩

theorem gc_realloc_fixed_keeps_contents_iff_block : ∃ fixed layout,
    (blockSpace fixed).Reallocates [⟨4096, 2101248⟩] layout [4112] 4112 100 ↔
      ¬(blockSpace fixed).Stuck .fixed [⟨4096, 2101248⟩] layout [4112] 100 := by
  obtain ⟨⟨fixed, regions, allocated⟩, layout, _, sound, rfl, rfl⟩ := blockManager
  exact ⟨fixed, layout, gc_realloc_fixed_keeps_contents_iff (blockSpace fixed) _ layout _ 4112
    100 sound (by decide) (by decide) (blockSpace_answers fixed (by decide))⟩

/-- The new region just holds the block, but not what `mem_allocate` adds to it. -/
theorem gc_realloc_fixed_stuck :
    ¬∀ (space : Space) (regions : List Region) (layout : Region → List Nat)
      (allocated : List Nat) (p request : Nat),
      Sound ⟨space.fixed, regions, allocated⟩ layout → p ∈ allocated →
      (Call.expand request none).Fits → Answers space.answers regions request →
      space.Reallocates regions layout allocated p request := by
  intro claim
  obtain ⟨⟨fixed, regions, allocated⟩, layout, ran, sound, rfl, rfl⟩ := blockManager
  have fails : ((run blockCalls ⟨memInit fun _ => 0, [], []⟩).map fun manager =>
      ((blockSpace manager.heap).gcReallocFixed 4112 2097104).isNone) = some true := by
    decide +kernel
  rw [ran] at fails
  have nothing := Option.isNone_iff_eq_none.mp (Option.some.inj fails)
  obtain ⟨final, t, run, _⟩ := claim (blockSpace fixed) _ layout _ 4112 2097104 sound
    (by decide) (by decide) (blockSpace_answers fixed (by decide))
  rw [nothing] at run
  cases run

end Space

end LaTTe.Gc
