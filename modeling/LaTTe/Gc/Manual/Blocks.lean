import LaTTe.Data.BlockHeap
import LaTTe.Gc.Manual.Run

namespace LaTTe.Gc.Manual

open LaTTe.Data

/-! What the manual memory manager is to its callers: blocks of bytes. -/

def wordBytes (value : Nat) : List Nat :=
  [value / 256 ^ 3 % 256, value / 256 ^ 2 % 256, value / 256 ^ 1 % 256, value / 256 ^ 0 % 256]

@[simp] theorem length_wordBytes (value : Nat) : (wordBytes value).length = 4 :=
  rfl

theorem getElem_wordBytes (value : Nat) {j : Nat} (below : j < (wordBytes value).length) :
    (wordBytes value)[j] = value / 256 ^ (3 - j) % 256 := by
  rw [length_wordBytes] at below
  interval_cases j <;> rfl

section

variable {memory other : Memory} {p t k address value bytes : Nat}

theorem byteAt_store (alignedP : p % 4 = 0) (aligned : address % 4 = 0) (above : p ≤ address)
    (block : Block) (same : byteAt memory (p + k) = block.contents k) :
    byteAt (memory.store address value) (p + k) =
      (block.write (address - p) (wordBytes value)).contents k := by
  by_cases inside : address - p ≤ k ∧ k < address - p + 4
  · have word : (p + k) / 4 * 4 = address := by omega
    have offset : (p + k) % 4 = k - (address - p) := by omega
    have covered : k - (address - p) < (wordBytes value).length := by
      rw [length_wordBytes]
      omega
    rw [Block.write_inside _ inside.1 covered, getElem_wordBytes, byteAt, word, offset,
      Memory.store_same]
  · have outside : k < address - p ∨ address - p + (wordBytes value).length ≤ k := by
      rw [length_wordBytes]
      omega
    rw [Block.write_outside _ outside, ← same, byteAt, byteAt,
      Memory.store_other _ _ (by omega)]

theorem byteAt_clear (clear : memory (p / 4 * 4) = 0) : byteAt memory p = 0 := by
  rw [byteAt, clear, Nat.zero_div, Nat.zero_mod]

theorem memcpy_clear (alignedT : t % 4 = 0) (behind : bytes ≤ k)
    (clear : memory (t + k / 4 * 4) = 0) : byteAt (memcpy memory t p bytes) (t + k) = 0 := by
  have word : (t + k) / 4 * 4 = t + k / 4 * 4 := by omega
  have offset : (t + k) % 4 = k % 4 := by omega
  by_cases partly : k / 4 * 4 < bytes
  · -- the last word is copied up to `bytes`
    have split : 256 ^ (4 - bytes % 4) = 256 * 256 ^ (3 - k % 4) * 256 ^ (k % 4 - bytes % 4) := by
      rw [← Nat.pow_succ', ← Nat.pow_add]
      congr 1
      omega
    rw [byteAt, word, offset, memcpy, if_neg (by omega), if_pos (by omega), clear]
    dsimp only
    rw [Nat.zero_mod, Nat.add_zero, split]
    generalize memory _ / _ = leading
    have factor : leading * (256 * 256 ^ (3 - k % 4) * 256 ^ (k % 4 - bytes % 4)) =
        leading * 256 ^ (k % 4 - bytes % 4) * 256 * 256 ^ (3 - k % 4) := by
      ac_rfl
    rw [factor, Nat.mul_div_cancel _ (Nat.pow_pos (by decide)), Nat.mul_mod_left]
  · apply byteAt_clear
    rw [word, memcpy, if_neg (by omega), if_neg (by omega), clear]

end

section

variable {heap final : GcHeap} {regions : List Region} {allocated : List Nat}
  {layout : Region → List Nat} {request p t : Nat}

theorem memAllocate_clear (fits : request + 27 < wordSize)
    (run : memAllocate heap request = some (final, t)) (found : t ≠ 0) {address : Nat}
    (low : t ≤ address) (high : address < t + (roundedSize request - gcHead)) :
    final.memory address = 0 := by
  obtain ⟨_, atLeast, bounded⟩ := roundedSize_spec fits
  have bytes : (roundedSize request + wordSize - gcHead) % wordSize =
      roundedSize request - gcHead := by
    unfold gcHead wordSize at *
    omega
  unfold memAllocate at run
  obtain ⟨q, _, run⟩ := Option.bind_eq_some_iff.mp run
  dsimp only at run
  split at run
  · obtain ⟨split, _, run⟩ := Option.bind_eq_some_iff.mp run
    obtain ⟨rfl, rfl⟩ := Prod.mk.inj (Option.some.inj run)
    dsimp only
    rw [memsetZero, bytes, if_pos ⟨low, high⟩]
  · obtain ⟨rfl, rfl⟩ := Prod.mk.inj (Option.some.inj run)
    exact absurd rfl found

/-- What `mem_resize` adds to a block is clear. -/
theorem memResize_clear (sound : Sound ⟨heap, regions, allocated⟩ layout) (isHeld : p ∈ allocated)
    (fits : request + 27 < wordSize) (run : memResize heap p request = some (final, t))
    (found : t ≠ 0) :
    size final.memory t = roundedSize request ∧
      ∀ k, min (size heap.memory p - gcHead) request ≤ k → k < roundedSize request - gcHead →
        byteAt final.memory (t + k) = 0 := by
  have nonzero : p ≠ 0 := by
    have := (sound.isLump (sound.held p isHeld)).positive
    omega
  rw [memResize, if_neg nonzero] at run
  obtain ⟨⟨grown, t'⟩, allocates, run⟩ := Option.bind_eq_some_iff.mp run
  dsimp only at run
  split at run
  · obtain ⟨_, rfl⟩ := Prod.mk.inj (Option.some.inj run)
    exact absurd rfl found
  · obtain ⟨freed, frees, run⟩ := Option.bind_eq_some_iff.mp run
    obtain ⟨rfl, rfl⟩ := Prod.mk.inj (Option.some.inj run)
    obtain ⟨_, _, run', _, ⟨rfl, _⟩ | ⟨_, new, size_eq, keeps, middle, grownSound⟩⟩ :=
      memAllocate_sound sound fits
    · obtain ⟨_, rfl⟩ := Prod.mk.inj (Option.some.inj (allocates.symm.trans run'))
      exact absurd rfl found
    · obtain ⟨rfl, rfl⟩ := Prod.mk.inj (Option.some.inj (allocates.symm.trans run'))
      have sizeP := (keeps p isHeld).size
      obtain ⟨_, atLeast, _⟩ := roundedSize_spec fits
      generalize bytes_eq : (if size grown.memory p - gcHead < request then
        size grown.memory p - gcHead else request) = bytes at frees
      have bytes_min : bytes = min (size heap.memory p - gcHead) request := by
        rw [← bytes_eq, sizeP]
        split <;> omega
      have outside : ∀ address, address < t' ∨ t' + size grown.memory t' ≤ address + 4 →
          memcpy grown.memory t' p bytes address = grown.memory address := by
        intro address outside
        rw [size_eq] at outside
        unfold memcpy
        rw [if_neg (by omega), if_neg (by omega)]
      have copied : Sound ⟨{ grown with memory := memcpy grown.memory t' p bytes },
          regions, t' :: allocated⟩ middle :=
        grownSound.write List.mem_cons_self outside rfl
      have positive := (grownSound.isLump (grownSound.held t' List.mem_cons_self)).positive
      have sizeCopied : size (memcpy grown.memory t' p bytes) t' = roundedSize request := by
        rw [← size_eq]
        apply size_congr
        apply outside
        unfold header gcHead
        omega
      obtain ⟨freed', _, frees', _, untouched⟩ :=
        memFree_sound copied (List.mem_cons_of_mem t' isHeld)
      obtain rfl := Option.some.inj (frees.symm.trans frees')
      have kept := untouched t' List.mem_cons_self fun same => new (same ▸ isHeld)
      refine ⟨kept.size.trans sizeCopied, fun k behind below => ?_⟩
      have inside : k + gcHead < size (memcpy grown.memory t' p bytes) t' := by
        rw [sizeCopied]
        omega
      obtain ⟨aligned, rounded⟩ := grownSound.rounded (q := t') List.mem_cons_self
      rw [size_eq] at rounded
      dsimp only
      rw [copied.byteAt_eq List.mem_cons_self kept inside]
      apply memcpy_clear (by omega) (bytes_min ▸ behind)
      apply memAllocate_clear fits allocates found
      · omega
      · unfold gcHead at *
        omega

end

structure Contains (memory : Memory) (p : Nat) (block : Block) : Prop where
  size : block.size = Gc.size memory p - gcHead
  bytes : ∀ k < block.size, byteAt memory (p + k) = block.contents k

theorem Contains.untouched {manager : Manager} {layout : Region → List Nat}
    (sound : Sound manager layout) {p : Nat} (held : p ∈ manager.allocated) {block : Block}
    (contains : Contains manager.heap.memory p block) {other : Memory}
    (kept : Untouched manager.heap.memory other p) : Contains other p block where
  size := by rw [kept.size, contains.size]
  bytes := by
    intro k below
    rw [← contains.bytes k below]
    have size := contains.size
    exact Sound.byteAt_eq sound held kept (by omega)

def Call.action (manager : Manager) : Call → Option BlockHeap.Action
  | .expand _ _ => some .idle
  | .allocate request => do
      let (_, p) ← memAllocate manager.heap request
      some (if p = 0 then .idle else .allocate p (.clear (roundedSize request - gcHead)))
  | .resize p request => do
      let (_, t) ← memResize manager.heap p request
      let payload := size manager.heap.memory p - gcHead
      some (if t = 0 then .idle
        else if p = 0 then .allocate t (.clear (roundedSize request - gcHead))
        else .move p t (roundedSize request - gcHead) (min payload request))
  | .free p => some (.keep (manager.allocated.filter (· ≠ p)))
  | .write p address value => some (.write p (address - p) (wordBytes value))

def Call.Aligned : Call → Prop
  | .expand _ _ => True
  | .allocate _ => True
  | .resize _ _ => True
  | .free _ => True
  | .write _ address _ => address % 4 = 0

instance : (call : Call) → Decidable call.Aligned
  | .expand _ _ => inferInstanceAs (Decidable True)
  | .allocate _ => inferInstanceAs (Decidable True)
  | .resize _ _ => inferInstanceAs (Decidable True)
  | .free _ => inferInstanceAs (Decidable True)
  | .write _ _ _ => inferInstanceAs (Decidable (_ = _))

namespace Manager

inductive Step (manager : Manager) (action : BlockHeap.Action) (next : Manager) : Prop where
  | call (call : Call) (legal : call.Legal manager) (fits : call.Fits) (aligned : call.Aligned)
      (means : call.action manager = some action) (runs : exec manager call = some next)

structure Refines (manager : Manager) (blocks : BlockHeap) : Prop where
  sound : ∃ layout, Sound manager layout
  held : ∀ p, (∃ block, blocks p = some block) ↔ p ∈ manager.allocated
  contains : ∀ p block, blocks p = some block → Contains manager.heap.memory p block

variable {manager next : Manager} {blocks : BlockHeap}

section

variable (refines : manager.Refines blocks)

include refines

theorem Refines.fresh {p : Nat} (new : p ∉ manager.allocated) : blocks p = none := by
  by_contra found
  obtain ⟨block, found⟩ := Option.ne_none_iff_exists'.mp found
  exact new ((refines.held p).mp ⟨block, found⟩)

theorem Refines.advance {blocks' : BlockHeap} (sound : ∃ layout, Sound next layout)
    (held : ∀ p, (∃ block, blocks' p = some block) ↔ p ∈ next.allocated)
    (contains : ∀ p block, blocks' p = some block →
      blocks p = some block ∧ Untouched manager.heap.memory next.heap.memory p ∨
        Contains next.heap.memory p block) :
    next.Refines blocks' := by
  obtain ⟨layout, before⟩ := refines.sound
  refine ⟨sound, held, fun p block found => ?_⟩
  rcases contains p block found with ⟨old, untouched⟩ | new
  · exact (refines.contains p block old).untouched before
      ((refines.held p).mp ⟨block, old⟩) untouched
  · exact new

theorem Refines.idle (sound : ∃ layout, Sound next layout)
    (same : next.allocated = manager.allocated)
    (untouched : ∀ p ∈ manager.allocated, Untouched manager.heap.memory next.heap.memory p) :
    next.Refines blocks := by
  apply refines.advance sound
  · rw [same]
    exact refines.held
  · exact fun p block found => .inl ⟨found, untouched p ((refines.held p).mp ⟨block, found⟩)⟩

theorem Refines.unoccupied {layout : Region → List Nat}
    {allocated : List Nat} {heap : GcHeap} {t size : Nat}
    (sound : Sound ⟨heap, manager.regions, allocated⟩ layout) (inside : t ∈ allocated)
    (size_eq : Gc.size heap.memory t = size + gcHead)
    (others : ∀ p ∈ manager.allocated, p ≠ t ∧
      (p ∈ allocated ∧ Gc.size heap.memory p = Gc.size manager.heap.memory p ∨
        t + size + gcHead ≤ p ∨ p + Gc.size manager.heap.memory p ≤ t)) :
    blocks.Unoccupied t size := by
  intro q block found
  have held := (refines.held q).mp ⟨block, found⟩
  have size_block := (refines.contains q block found).size
  obtain ⟨different, ⟨inside', same⟩ | apart⟩ := others q held
  · have apart := sound.disjoint (sound.held t inside) (sound.held q inside') different.symm
    rw [size_eq, same] at apart
    unfold gcHead at *
    omega
  · unfold gcHead at *
    omega

/-- What `mem_allocate` returns is a new block. -/
theorem Refines.allocated {request t : Nat} {heap : GcHeap}
    (fits : request + 27 < wordSize) (run : memAllocate manager.heap request = some (heap, t))
    {left : List Nat} (same : ∀ p, p ∈ left ↔ p ∈ manager.allocated) :
    ∃ blocks', BlockHeap.Step blocks
        (if t = 0 then .idle else .allocate t (.clear (roundedSize request - gcHead))) blocks' ∧
      Refines ⟨heap, manager.regions, if t = 0 then manager.allocated else t :: left⟩ blocks' := by
  obtain ⟨layout, sound⟩ := refines.sound
  obtain ⟨multiple, atLeast, _⟩ := roundedSize_spec fits
  obtain ⟨heap', t', run', _, found⟩ := memAllocate_sound sound fits
  obtain ⟨rfl, rfl⟩ := Prod.mk.inj (Option.some.inj (run.symm.trans run'))
  rcases found with ⟨rfl, rfl⟩ | ⟨nonzero, new, size_eq, untouched, layout', grown⟩
  · exact ⟨blocks, .idle, refines⟩
  · rw [if_neg nonzero, if_neg nonzero]
    have room : size heap.memory t = roundedSize request - gcHead + gcHead := by
      unfold gcHead
      omega
    have unoccupied : blocks.Unoccupied t (roundedSize request - gcHead) := by
      apply refines.unoccupied grown List.mem_cons_self room
      intro p held
      exact ⟨fun same => new (same ▸ held),
        .inl ⟨List.mem_cons_of_mem t held, (untouched p held).size⟩⟩
    refine ⟨_, .allocate (refines.fresh new) unoccupied, refines.advance ?_ ?_ ?_⟩
    · refine ⟨layout', grown.allocated_congr fun p => ?_⟩
      rw [List.mem_cons, List.mem_cons, same]
    · intro p
      rw [List.mem_cons, same]
      by_cases equal : p = t
      · subst equal
        exact iff_of_true ⟨_, Function.update_self _ _ _⟩ (.inl rfl)
      · rw [Function.update_of_ne equal, or_iff_right equal]
        exact refines.held p
    · intro p block found
      by_cases equal : p = t
      · subst equal
        rw [Function.update_self, Option.some.injEq] at found
        subst found
        refine .inr ⟨by rw [size_eq]; rfl, fun k below => byteAt_clear ?_⟩
        have aligned := (grown.rounded (q := p) List.mem_cons_self).1
        change k < roundedSize request - gcHead at below
        apply memAllocate_clear fits run nonzero
        · omega
        · unfold gcHead at *
          omega
      · rw [Function.update_of_ne equal] at found
        exact .inl ⟨found, untouched p ((refines.held p).mp ⟨block, found⟩)⟩

/-- `mem_resize` moves a block, if there is room for it. -/
theorem Refines.resized {request p t : Nat} {heap : GcHeap}
    (held : p ∈ manager.allocated) (fits : request + 27 < wordSize)
    (run : memResize manager.heap p request = some (heap, t)) :
    ∃ blocks', BlockHeap.Step blocks
        (if t = 0 then .idle
          else .move p t (roundedSize request - gcHead)
            (min (size manager.heap.memory p - gcHead) request)) blocks' ∧
      Refines ⟨heap, manager.regions,
        if t = 0 then manager.allocated else t :: manager.allocated.filter (· ≠ p)⟩ blocks' := by
  obtain ⟨layout, sound⟩ := refines.sound
  obtain ⟨multiple, atLeast, _⟩ := roundedSize_spec fits
  obtain ⟨heap', t', run', _, found⟩ := memResize_spec sound held fits
  obtain ⟨rfl, rfl⟩ := Prod.mk.inj (Option.some.inj (run.symm.trans run'))
  rcases found with ⟨rfl, rfl⟩ | ⟨nonzero, moved, layout', after⟩
  · exact ⟨blocks, .idle, refines⟩
  · rw [if_neg nonzero, if_neg nonzero]
    obtain ⟨size_eq, clear⟩ := memResize_clear sound held fits run nonzero
    obtain ⟨block, found⟩ := (refines.held p).mpr held
    have old := refines.contains p block found
    have different : t ≠ p := fun same => moved.fresh (same ▸ held)
    have room : size heap.memory t = roundedSize request - gcHead + gcHead := by
      unfold gcHead
      omega
    have unoccupied : blocks.Unoccupied t (roundedSize request - gcHead) := by
      apply refines.unoccupied after List.mem_cons_self room
      intro q member
      refine ⟨fun same => moved.fresh (same ▸ member), ?_⟩
      by_cases same : q = p
      · subst same
        have apart := moved.apart
        rw [room] at apart
        exact .inr (by omega)
      · exact .inl ⟨List.mem_cons_of_mem t (List.mem_filter.mpr ⟨member, decide_eq_true same⟩),
          (moved.others q member same).size⟩
    have within : min (size manager.heap.memory p - gcHead) request ≤
        min block.size (roundedSize request - gcHead) := by
      rw [old.size]
      unfold gcHead
      omega
    refine ⟨_, .move found (refines.fresh moved.fresh) unoccupied within,
      refines.advance ⟨layout', after⟩ ?_ ?_⟩
    · intro q
      rw [List.mem_cons, List.mem_filter]
      by_cases first : q = t
      · subst first
        exact iff_of_true ⟨_, Function.update_self _ _ _⟩ (.inl rfl)
      · rw [Function.update_of_ne first, or_iff_right first]
        by_cases second : q = p
        · subst second
          rw [Function.update_self]
          simp
        · rw [Function.update_of_ne second, refines.held]
          simp [second]
    · intro q other here
      by_cases first : q = t
      · subst first
        rw [Function.update_self, Option.some.injEq] at here
        subst here
        refine .inr ⟨by rw [size_eq]; rfl, fun k below => ?_⟩
        dsimp only [Block.resize] at below ⊢
        split
        · rename_i common
          rw [moved.bytes k common]
          apply old.bytes
          rw [old.size]
          exact Nat.lt_of_lt_of_le common (Nat.min_le_left _ _)
        · rename_i added
          exact clear k (Nat.le_of_not_lt added) below
      · rw [Function.update_of_ne first] at here
        by_cases second : q = p
        · subst second
          rw [Function.update_self] at here
          cases here
        · rw [Function.update_of_ne second] at here
          exact .inl ⟨here,
            moved.others q ((refines.held q).mp ⟨other, here⟩) second⟩

theorem Refines.freed {p : Nat} {heap : GcHeap}
    (held : p ∈ manager.allocated) (run : memFree manager.heap p = some heap) :
    Refines ⟨heap, manager.regions, manager.allocated.filter (· ≠ p)⟩
      (blocks.restrict (manager.allocated.filter (· ≠ p))) := by
  obtain ⟨layout, sound⟩ := refines.sound
  obtain ⟨heap', layout', run', after, untouched⟩ := memFree_sound sound held
  obtain rfl := Option.some.inj (run.symm.trans run')
  apply refines.advance ⟨layout', after⟩
  · intro q
    simp only [BlockHeap.restrict_eq_some, exists_and_left, refines.held q]
    exact and_iff_left_of_imp fun member => (List.mem_filter.mp member).1
  · intro q block found
    obtain ⟨member, found⟩ := BlockHeap.restrict_eq_some.mp found
    obtain ⟨held', different⟩ := List.mem_filter.mp member
    exact .inl ⟨found, untouched q held' (of_decide_eq_true different)⟩

/-- A caller writes to its block. -/
theorem Refines.written {p address value : Nat} (held : p ∈ manager.allocated) (low : p ≤ address)
    (high : address + 4 ≤ p + size manager.heap.memory p - gcHead) (aligned : address % 4 = 0) :
    ∃ blocks', BlockHeap.Step blocks (.write p (address - p) (wordBytes value)) blocks' ∧
      Refines { manager with heap := manager.heap.setMemory address value } blocks' := by
  obtain ⟨layout, sound⟩ := refines.sound
  obtain ⟨block, found⟩ := (refines.held p).mpr held
  have old := refines.contains p block found
  have outside : ∀ other, other < p ∨ p + size manager.heap.memory p ≤ other + 4 →
      (manager.heap.setMemory address value).memory other = manager.heap.memory other := by
    intro other outside
    apply Memory.store_other
    unfold gcHead at high
    omega
  have after : Sound { manager with heap := manager.heap.setMemory address value } layout :=
    sound.write held outside rfl
  have inside : address - p + (wordBytes value).length ≤ block.size := by
    rw [old.size, length_wordBytes]
    omega
  have positive := (sound.isLump (sound.held p held)).positive
  have header_eq (q : Nat) (member : q ∈ manager.allocated) :
      (manager.heap.setMemory address value).memory (header q) =
        manager.heap.memory (header q) := by
    apply outside
    have positiveQ := (sound.isLump (sound.held q member)).positive
    by_cases same : q = p
    · subst same
      unfold header gcHead
      omega
    · have apart := sound.disjoint (sound.held p held) (sound.held q member) (Ne.symm same)
      unfold header gcHead
      omega
  refine ⟨_, .write found inside, refines.advance ⟨layout, after⟩ ?_ ?_⟩
  · intro q
    by_cases same : q = p
    · subst same
      exact iff_of_true ⟨_, Function.update_self _ _ _⟩ held
    · rw [Function.update_of_ne same]
      exact refines.held q
  · intro q other here
    by_cases same : q = p
    · subst same
      rw [Function.update_self, Option.some.injEq] at here
      subst here
      refine .inr ⟨?_, fun k below => ?_⟩
      · rw [size_congr (header_eq q held)]
        exact old.size
      · have alignedP := (Sound.rounded sound held).1
        exact byteAt_store (by omega) aligned low block (old.bytes k below)
    · rw [Function.update_of_ne same] at here
      have member := (refines.held q).mp ⟨other, here⟩
      have apart := sound.disjoint (sound.held p held) (sound.held q member) (Ne.symm same)
      refine .inl ⟨here, size_congr (header_eq q member),
        congrArg (hasFlag · .mark) (header_eq q member), ?_⟩
      intro address' low' high'
      apply outside
      omega

/-- Each call is a step of the blocks. -/
theorem Refines.step {action : BlockHeap.Action} (step : manager.Step action next) :
    ∃ blocks', BlockHeap.Step blocks action blocks' ∧ next.Refines blocks' := by
  obtain ⟨layout, sound⟩ := refines.sound
  obtain ⟨call, legal, fits, aligned, means, runs⟩ := step
  cases call with
  | expand request start =>
      cases means
      cases start with
      | none =>
          cases runs
          exact ⟨blocks, .idle, refines⟩
      | some start =>
          obtain ⟨begins, inRange, new⟩ := legal
          obtain ⟨heap, layout', run, after, _, _, _, untouched⟩ :=
            memExpand_sound sound fits begins inRange new
          simp only [exec, run, Option.bind_eq_bind, Option.bind_some] at runs
          cases runs
          exact ⟨blocks, .idle, refines.idle ⟨layout', after⟩ rfl untouched⟩
  | allocate request =>
      obtain ⟨⟨heap, t⟩, run, means⟩ := Option.bind_eq_some_iff.mp means
      cases means
      simp only [exec, run, Option.bind_eq_bind, Option.bind_some] at runs
      cases runs
      exact refines.allocated fits run fun p => Iff.rfl
  | resize p request =>
      obtain ⟨⟨heap, t⟩, run, means⟩ := Option.bind_eq_some_iff.mp means
      cases means
      simp only [exec, run, Option.bind_eq_bind, Option.bind_some] at runs
      cases runs
      have nonzero : ∀ q ∈ manager.allocated, q ≠ 0 := by
        rintro q member rfl
        have := (sound.isLump (sound.held 0 member)).positive
        omega
      rcases legal with rfl | held
      · rw [memResize, if_pos rfl] at run
        rw [if_pos rfl]
        apply refines.allocated fits run
        intro p
        rw [List.mem_filter, decide_eq_true_eq]
        exact and_iff_left_of_imp (nonzero p)
      · rw [if_neg (nonzero p held)]
        exact refines.resized held fits run
  | free p =>
      cases means
      obtain ⟨heap, run, runs⟩ := Option.bind_eq_some_iff.mp runs
      cases runs
      refine ⟨_, .keep, ?_⟩
      rcases legal with rfl | held
      · rw [memFree, if_pos rfl] at run
        cases run
        apply refines.advance ⟨layout, sound.drop_zero⟩
        · intro q
          simp only [BlockHeap.restrict_eq_some, exists_and_left, refines.held q]
          exact and_iff_left_of_imp fun member => (List.mem_filter.mp member).1
        · intro q block found
          exact .inl ⟨(BlockHeap.restrict_eq_some.mp found).2, Untouched.refl _ _⟩
      · exact refines.freed held run
  | write p address value =>
      cases means
      cases runs
      obtain ⟨held, low, high⟩ := legal
      exact refines.written held low high aligned

end

end Manager

/-- Whatever is allocated, resized, freed and written, in any order: the manager gives its
callers blocks of bytes that have nothing in common, new ones are clear, each keeps its bytes
until it is freed, and one that is resized takes along what fits. -/
theorem manager_refines_blocks {memory : Memory} {actions : List BlockHeap.Action}
    {manager : Manager}
    (run : Behaviour Manager.Step ⟨memInit memory, [], []⟩ actions manager) :
    ∃ blocks, Behaviour BlockHeap.Step (fun _ => none) actions blocks ∧
      manager.Refines blocks ∧ blocks.Separate := by
  have each : ∀ state other label next, Manager.Refines state other →
      Manager.Step state label next →
        ∃ next', BlockHeap.Step other label next' ∧ Manager.Refines next next' :=
    fun _ _ _ _ refines step => refines.step step
  have initially : Manager.Refines ⟨memInit memory, [], []⟩ fun _ => none :=
    ⟨⟨_, empty_sound memory⟩, by simp, by simp⟩
  obtain ⟨blocks, abstract, refines⟩ := run.simulates each initially
  exact ⟨blocks, abstract, refines, BlockHeap.separate_run abstract⟩

theorem behaviour_of_run {calls : List Call} {start manager final : Manager}
    {actions : List BlockHeap.Action} (before : Behaviour Manager.Step start actions manager)
    (permitted : ∀ call ∈ calls, call.Fits ∧ call.Aligned)
    (ran : run calls manager = some final) :
    ∃ actions, Behaviour Manager.Step start actions final := by
  induction calls generalizing manager actions with
  | nil =>
      cases ran
      exact ⟨actions, before⟩
  | cons call rest ih =>
      rw [run, List.foldlM_cons] at ran
      split at ran
      · rename_i legal
        obtain ⟨next, runs, ran⟩ := Option.bind_eq_some_iff.mp ran
        obtain ⟨fits, aligned⟩ := permitted call (by simp)
        have means : ∃ action, call.action manager = some action := by
          cases call with
          | expand => exact ⟨_, rfl⟩
          | free => exact ⟨_, rfl⟩
          | write => exact ⟨_, rfl⟩
          | allocate request =>
              obtain ⟨result, returns, _⟩ := Option.bind_eq_some_iff.mp runs
              exact ⟨_, Option.bind_eq_some_iff.mpr ⟨result, returns, rfl⟩⟩
          | resize p request =>
              obtain ⟨result, returns, _⟩ := Option.bind_eq_some_iff.mp runs
              exact ⟨_, Option.bind_eq_some_iff.mpr ⟨result, returns, rfl⟩⟩
        obtain ⟨action, means⟩ := means
        exact ih (before.step ⟨call, legal, fits, aligned, means, runs⟩)
          (fun other member => permitted other (List.mem_cons_of_mem _ member)) ran
      · cases ran

theorem manager_refines_blocks_resized : ∃ manager actions blocks,
    run [.expand 100 (some 4096), .allocate 40, .write 4112 4116 7, .resize 4112 500]
        ⟨memInit fun _ => 0, [], []⟩ = some manager ∧
      manager.allocated = [4176] ∧
      Behaviour Manager.Step ⟨memInit fun _ => 0, [], []⟩ actions manager ∧
      Behaviour BlockHeap.Step (fun _ => none) actions blocks ∧
      manager.Refines blocks ∧ blocks.Separate := by
  have ran : ((run [.expand 100 (some 4096), .allocate 40, .write 4112 4116 7,
      .resize 4112 500] ⟨memInit fun _ => 0, [], []⟩).map (·.allocated)) = some [4176] := by
    decide +kernel
  obtain ⟨manager, run_eq, held⟩ := Option.map_eq_some_iff.mp ran
  obtain ⟨actions, behaves⟩ := behaviour_of_run .start (by decide) run_eq
  obtain ⟨blocks, facts⟩ := manager_refines_blocks behaves
  exact ⟨manager, actions, blocks, run_eq, held, behaves, facts⟩

end LaTTe.Gc.Manual
