import LaTTe.Data.Transition
import Mathlib.Data.List.GetD
import Mathlib.Logic.Function.Basic

namespace LaTTe.Data

/-! What a memory manager is for: blocks of memory that have nothing in common, each
with contents of its own. -/

structure Block where
  size : Nat
  contents : Nat → Nat

namespace Block

def clear (size : Nat) : Block :=
  ⟨size, fun _ => 0⟩

def write (block : Block) (offset : Nat) (values : List Nat) : Block :=
  { block with
    contents := fun index =>
      if offset ≤ index then values.getD (index - offset) (block.contents index)
      else block.contents index }

def resize (block : Block) (size common : Nat) : Block :=
  ⟨size, fun index => if index < common then block.contents index else 0⟩

theorem write_inside (block : Block) {offset index : Nat} {values : List Nat}
    (reaches : offset ≤ index) (inside : index - offset < values.length) :
    (block.write offset values).contents index = values[index - offset] := by
  simp only [write, if_pos reaches, List.getD_eq_getElem _ _ inside]

theorem write_outside (block : Block) {offset index : Nat} {values : List Nat}
    (outside : index < offset ∨ offset + values.length ≤ index) :
    (block.write offset values).contents index = block.contents index := by
  dsimp only [write]
  split
  · exact List.getD_eq_default _ _ (by omega)
  · rfl

end Block

abbrev BlockHeap := Nat → Option Block

namespace BlockHeap

/-- No other block reaches into the `size` bytes at `p`. -/
def Unoccupied (heap : BlockHeap) (p size : Nat) : Prop :=
  ∀ q block, heap q = some block → p + size ≤ q ∨ q + block.size ≤ p

def restrict (heap : BlockHeap) (kept : List Nat) : BlockHeap :=
  fun p => if p ∈ kept then heap p else none

@[simp] theorem restrict_eq_some {heap : BlockHeap} {kept : List Nat} {p : Nat} {block : Block} :
    heap.restrict kept p = some block ↔ p ∈ kept ∧ heap p = some block := by
  unfold restrict
  split
  · rename_i member
    exact (and_iff_right member).symm
  · rename_i absent
    simp [absent]

inductive Action where
  | allocate (p : Nat) (block : Block)
  | write (p offset : Nat) (values : List Nat)
  | move (p target size common : Nat)
  | keep (kept : List Nat)
  | idle

inductive Step : BlockHeap → Action → BlockHeap → Prop where
  | allocate {heap : BlockHeap} {p : Nat} {block : Block} (fresh : heap p = none)
      (unoccupied : heap.Unoccupied p block.size) :
      Step heap (.allocate p block) (Function.update heap p (some block))
  | write {heap : BlockHeap} {p offset : Nat} {values : List Nat} {block : Block}
      (found : heap p = some block) (inside : offset + values.length ≤ block.size) :
      Step heap (.write p offset values)
        (Function.update heap p (some (block.write offset values)))
  | move {heap : BlockHeap} {p target size common : Nat} {block : Block}
      (found : heap p = some block) (fresh : heap target = none)
      (unoccupied : heap.Unoccupied target size) (within : common ≤ min block.size size) :
      Step heap (.move p target size common)
        (Function.update (Function.update heap p none) target (some (block.resize size common)))
  | keep {heap : BlockHeap} {kept : List Nat} :
      Step heap (.keep kept) (heap.restrict kept)
  | idle {heap : BlockHeap} : Step heap .idle heap

def Separate (heap : BlockHeap) : Prop :=
  ∀ p q block other, heap p = some block → heap q = some other → p ≠ q →
    p + block.size ≤ q ∨ q + other.size ≤ p

theorem Separate.insert {heap : BlockHeap} (separate : heap.Separate) {p : Nat} {block : Block}
    (unoccupied : heap.Unoccupied p block.size) :
    Separate (Function.update heap p (some block)) := by
  intro q r left right atLeft atRight different
  by_cases first : q = p
  · subst first
    rw [Function.update_self, Option.some.injEq] at atLeft
    rw [Function.update_of_ne (Ne.symm different)] at atRight
    rw [← atLeft]
    exact unoccupied r right atRight
  · rw [Function.update_of_ne first] at atLeft
    by_cases second : r = p
    · subst second
      rw [Function.update_self, Option.some.injEq] at atRight
      rw [← atRight]
      exact (unoccupied q left atLeft).symm
    · rw [Function.update_of_ne second] at atRight
      exact separate q r left right atLeft atRight different

theorem Separate.fewer {heap next : BlockHeap} (separate : heap.Separate)
    (fewer : ∀ p block, next p = some block → ∃ old, heap p = some old ∧ old.size = block.size) :
    next.Separate := by
  intro p q block other found found' different
  obtain ⟨old, here, size⟩ := fewer p block found
  obtain ⟨old', here', size'⟩ := fewer q other found'
  rw [← size, ← size']
  exact separate p q old old' here here' different

theorem update_none {heap : BlockHeap} {p q : Nat} {block : Block}
    (found : Function.update heap p none q = some block) : heap q = some block := by
  by_cases same : q = p
  · subst same
    rw [Function.update_self] at found
    cases found
  · rwa [Function.update_of_ne same] at found

theorem Step.separate {heap next : BlockHeap} {action : Action} (step : Step heap action next)
    (separate : heap.Separate) : next.Separate := by
  cases step with
  | allocate fresh unoccupied => exact separate.insert unoccupied
  | @write p offset values block found inside =>
      apply separate.fewer
      intro q after here
      by_cases same : q = p
      · subst same
        rw [Function.update_self, Option.some.injEq] at here
        exact ⟨block, found, by rw [← here]; rfl⟩
      · rw [Function.update_of_ne same] at here
        exact ⟨after, here, rfl⟩
  | @move p target size common block found fresh unoccupied =>
      have removed : Separate (Function.update heap p none) :=
        separate.fewer fun q other here => ⟨other, update_none here, rfl⟩
      exact removed.insert fun q other here => unoccupied q other (update_none here)
  | keep =>
      apply separate.fewer
      exact fun p block here => ⟨block, (restrict_eq_some.mp here).2, rfl⟩
  | idle => exact separate

theorem separate_run {labels : List Action} {heap : BlockHeap}
    (run : Behaviour Step (fun _ => none) labels heap) : heap.Separate := by
  apply run.invariant Separate
  · intro p q block other found
    cases found
  · exact fun state label next separate step => step.separate separate

end BlockHeap

end LaTTe.Data
