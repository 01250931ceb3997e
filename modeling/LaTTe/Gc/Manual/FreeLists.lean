import LaTTe.Data.BestFit
import LaTTe.Data.Linked
import LaTTe.Gc.Manual.Manager

namespace LaTTe.Gc.Manual

open LaTTe.Data

/-! Lumps start at multiples of sixteen, so the words of one lump are told apart
by their residue: links at 0 and 4, the footer at 8, the next header at 12. -/

structure IsLump (p : Nat) : Prop where
  aligned : p % 16 = 0
  positive : 0 < p
  small : p < wordSize

def SameTags (memory other : Memory) : Prop :=
  ∀ address, address % 16 = 8 ∨ address % 16 = 12 → other address = memory address

section

variable {memory other : Memory} {p q value : Nat}

theorem SameTags.trans {third : Memory} (first : SameTags memory other)
    (second : SameTags other third) : SameTags memory third := by
  intro address isTag
  rw [second address isTag, first address isTag]

theorem SameTags.header_eq (same : SameTags memory other) (aligned : p % 16 = 0)
    (positive : 0 < p) : other (header p) = memory (header p) := by
  apply same
  unfold header gcHead
  omega

theorem size_congr (same : other (header p) = memory (header p)) :
    size other p = size memory p := by
  rw [size, same, size]

theorem prevInUse_congr (same : other (header p) = memory (header p)) :
    prevInUse other p = prevInUse memory p := by
  rw [prevInUse, same, prevInUse]

theorem SameTags.size_eq (same : SameTags memory other) (lump : IsLump p) :
    size other p = size memory p := by
  exact size_congr (same.header_eq lump.aligned lump.positive)

theorem size_reflag (same : maskSize value = maskSize (memory (header p))) (q : Nat) :
    size (memory.store (header p) value) q = size memory q := by
  unfold size Memory.store
  split
  · rename_i equal
    rw [equal, same]
  · rfl

theorem prevInUse_resize
    (same : hasFlag value .prev = hasFlag (memory (header p)) .prev) (q : Nat) :
    prevInUse (memory.store (header p) value) q = prevInUse memory q := by
  unfold prevInUse Memory.store
  split
  · rename_i equal
    rw [equal, same]
  · rfl

theorem prev_setTag {address : Nat} (isTag : address % 16 = 8 ∨ address % 16 = 12)
    (aligned : q % 16 = 0) :
    prev (memory.store address value) q = prev memory q :=
  Memory.store_other memory value (by omega)

theorem sameTags_setNext (aligned : p % 16 = 0) :
    SameTags memory (memory.store p value) := by
  intro address isTag
  exact Memory.store_other memory value (by omega)

theorem sameTags_setPrev (aligned : p % 16 = 0) :
    SameTags memory (memory.store (p + 4) value) := by
  intro address isTag
  exact Memory.store_other memory value (by omega)

theorem next_setNext_other (different : q ≠ p) :
    next (memory.store p value) q = next memory q :=
  Memory.store_other memory value different

@[simp] theorem next_setNext_same : next (memory.store p value) p = value :=
  Memory.store_same memory p value

theorem prev_setPrev_other (different : q ≠ p) :
    prev (memory.store (p + 4) value) q = prev memory q :=
  Memory.store_other memory value (by omega)

@[simp] theorem prev_setPrev_same : prev (memory.store (p + 4) value) p = value :=
  Memory.store_same memory (p + 4) value

theorem next_setPrev (alignedP : p % 16 = 0) (alignedQ : q % 16 = 0) :
    next (memory.store (p + 4) value) q = next memory q :=
  Memory.store_other memory value (by omega)

theorem prev_setNext (alignedP : p % 16 = 0) (alignedQ : q % 16 = 0) :
    prev (memory.store p value) q = prev memory q :=
  Memory.store_other memory value (by omega)

end

structure Listed (memory : Memory) (lists : Nat → Nat) (chain : Nat → List Nat) :
    Prop where
  linked : ∀ cls < sizeClasses, ∃ last,
    Linked (next memory) (prev memory) 0 (lists cls) (chain cls) last 0
  distinct : ∀ cls < sizeClasses, (chain cls).Nodup
  ascending : ∀ cls < sizeClasses,
    (chain cls).Pairwise fun p q => size memory p ≤ size memory q
  classified : ∀ cls < sizeClasses, ∀ p ∈ chain cls,
    sizeClass (size memory p) = cls
  lumps : ∀ cls < sizeClasses, ∀ p ∈ chain cls, IsLump p
  sentinel : lists sizeClasses ≠ 0

/-- The free lists hold exactly the lumps in `free`. -/
def FreeLists (heap : GcHeap) (free : Nat → Prop) : Prop :=
  ∃ chain, Listed heap.memory heap.lists chain ∧
    ∀ p, free p ↔ ∃ cls < sizeClasses, p ∈ chain cls

section

variable {memory other : Memory} {lists lists' : Nat → Nat}
  {chain : Nat → List Nat}

theorem Listed.congr (listed : Listed memory lists chain)
    (sameNext : ∀ cls < sizeClasses, ∀ p ∈ chain cls, next other p = next memory p)
    (samePrev : ∀ cls < sizeClasses, ∀ p ∈ chain cls, prev other p = prev memory p)
    (sameSize : ∀ cls < sizeClasses, ∀ p ∈ chain cls, size other p = size memory p) :
    Listed other lists chain where
  linked := by
    intro cls below
    obtain ⟨last, linked⟩ := listed.linked cls below
    exact ⟨last, linked.congr (sameNext cls below) (samePrev cls below)⟩
  distinct := listed.distinct
  ascending := by
    intro cls below
    apply (listed.ascending cls below).imp_of_mem
    intro p q hp hq le
    rwa [sameSize cls below p hp, sameSize cls below q hq]
  classified := by
    intro cls below p member
    rw [sameSize cls below p member]
    exact listed.classified cls below p member
  lumps := listed.lumps
  sentinel := listed.sentinel

/-- Change one list and leave the others alone. -/
theorem Listed.update (listed : Listed memory lists chain) {cls : Nat}
    (below : cls < sizeClasses) {nodes : List Nat}
    (linked : ∃ last, Linked (next other) (prev other) 0 (lists' cls) nodes last 0)
    (distinct : nodes.Nodup)
    (ascending : nodes.Pairwise fun p q => size other p ≤ size other q)
    (classified : ∀ p ∈ nodes, sizeClass (size other p) = cls)
    (lumps : ∀ p ∈ nodes, IsLump p)
    (sameLists : ∀ c, c ≠ cls → lists' c = lists c)
    (sameTags : SameTags memory other)
    (sameLinks : ∀ c < sizeClasses, c ≠ cls → ∀ p ∈ chain c,
      next other p = next memory p ∧ prev other p = prev memory p) :
    Listed other lists' (fun c => if c = cls then nodes else chain c) where
  linked := by
    intro c hc
    split
    · rename_i same
      exact same ▸ linked
    · rename_i different
      obtain ⟨last, old⟩ := listed.linked c hc
      rw [sameLists c different]
      exact ⟨last, old.congr (fun p hp => (sameLinks c hc different p hp).1)
        (fun p hp => (sameLinks c hc different p hp).2)⟩
  distinct := by
    intro c hc
    split
    · exact distinct
    · exact listed.distinct c hc
  ascending := by
    intro c hc
    split
    · exact ascending
    · apply (listed.ascending c hc).imp_of_mem
      intro p q hp hq le
      rwa [sameTags.size_eq (listed.lumps c hc p hp),
        sameTags.size_eq (listed.lumps c hc q hq)]
  classified := by
    intro c hc p
    split
    · rename_i same
      exact fun member => same ▸ classified p member
    · intro member
      rw [sameTags.size_eq (listed.lumps c hc p member)]
      exact listed.classified c hc p member
  lumps := by
    intro c hc p
    split
    · exact lumps p
    · exact listed.lumps c hc p
  sentinel := by
    rw [sameLists sizeClasses (by omega)]
    exact listed.sentinel

theorem Listed.zero_not_mem (listed : Listed memory lists chain) {cls : Nat}
    (below : cls < sizeClasses) : 0 ∉ chain cls := by
  intro member
  have := (listed.lumps cls below 0 member).positive
  omega

theorem Listed.length_lt (listed : Listed memory lists chain) {cls : Nat}
    (below : cls < sizeClasses) : (chain cls).length < wordSize := by
  have distinct : (0 :: chain cls).Nodup :=
    List.nodup_cons.mpr ⟨listed.zero_not_mem below, listed.distinct cls below⟩
  have included : 0 :: chain cls ⊆ List.range wordSize := by
    intro p member
    rw [List.mem_range]
    rcases List.mem_cons.mp member with rfl | member
    · decide
    · exact (listed.lumps cls below p member).small
  have shorter := List.Nodup.length_le_of_subset distinct included
  simpa [Nat.succ_le_iff] using shorter

end

theorem seek_spec (memory : Memory) (wanted : Nat) {nodes : List Nat}
    {before head last fuel : Nat}
    (linked : Linked (next memory) (prev memory) before head nodes last 0)
    (nonzero : 0 ∉ nodes)
    (enough : nodes.length < fuel) :
    ∃ left right middle link,
      seek memory wanted fuel before head = some (middle, link) ∧
      nodes = left ++ right ∧
      Linked (next memory) (prev memory) before head left middle link ∧
      Linked (next memory) (prev memory) middle link right last 0 ∧
      (∀ p ∈ left, size memory p < wanted) ∧
      ∀ p ∈ right.head?, wanted ≤ size memory p := by
  induction nodes generalizing before head fuel with
  | nil =>
      obtain ⟨rfl, rfl⟩ := linked
      cases fuel with
      | zero => simp at enough
      | succ fuel =>
          exact ⟨[], [], last, 0, by simp [seek], rfl, ⟨rfl, rfl⟩, ⟨rfl, rfl⟩,
            by simp, by simp⟩
  | cons node rest ih =>
      cases fuel with
      | zero => simp at enough
      | succ fuel =>
          obtain ⟨rfl, back, behind⟩ := linked
          have nonzeroHead : head ≠ 0 := by
            rintro rfl
            simp at nonzero
          cases Nat.lt_or_ge (size memory head) wanted with
          | inl smaller =>
              obtain ⟨left, right, middle, link, found, same, first, second,
                  allSmaller, atLeast⟩ :=
                ih behind (fun member => nonzero (by simp [member]))
                  (by simpa using enough)
              refine ⟨head :: left, right, middle, link, ?_, by simp [same],
                ⟨rfl, back, first⟩, second, ?_, atLeast⟩
              · rw [seek, if_pos ⟨nonzeroHead, smaller⟩]
                exact found
              · intro p member
                rcases List.mem_cons.mp member with rfl | member
                · exact smaller
                · exact allSmaller p member
          | inr enoughHere =>
              refine ⟨[], head :: rest, before, head, ?_, rfl, ⟨rfl, rfl⟩,
                ⟨rfl, back, behind⟩, by simp, by simpa using enoughHere⟩
              rw [seek, if_neg (by omega)]

theorem halvings_mono (fuel : Nat) {small large : Nat} (le : small ≤ large) :
    halvings fuel small ≤ halvings fuel large := by
  induction fuel generalizing small large with
  | zero => exact Nat.le_refl _
  | succ fuel ih =>
      have halves := ih (Nat.div_le_div_right (c := 2) le)
      simp only [halvings]
      split <;> split <;> omega

theorem halvings_le (fuel exponent : Nat) {size : Nat}
    (bounded : size ≤ sizeClassMaxSmallSize * 2 ^ exponent) :
    halvings fuel size ≤ exponent := by
  induction fuel generalizing size exponent with
  | zero => exact Nat.zero_le _
  | succ fuel ih =>
      cases exponent with
      | zero =>
          simp only [halvings]
          split <;> omega
      | succ exponent =>
          have fits : size / 2 ≤ sizeClassMaxSmallSize * 2 ^ exponent := by
            rw [Nat.pow_succ] at bounded
            unfold sizeClassMaxSmallSize at *
            omega
          have halved := ih exponent fits
          simp only [halvings]
          split <;> omega

theorem sizeClass_lt (size : Nat) : sizeClass size < sizeClasses := by
  unfold sizeClass
  split
  · unfold sizeClasses sizeClassMaxSmallSize sizeClassMaxExponent memAlign at *
    omega
  · split
    · decide
    · rename_i bounded
      have := halvings_le 32 sizeClassMaxExponent (Nat.le_of_not_lt bounded)
      unfold sizeClasses sizeClassMaxSmallSize sizeClassMaxExponent memAlign at *
      omega

theorem sizeClass_mono {small large : Nat} (le : small ≤ large) :
    sizeClass small ≤ sizeClass large := by
  have more := halvings_mono 32 le
  have bound : small ≤ sizeClassMaxSmallSize * 2 ^ sizeClassMaxExponent →
      halvings 32 small ≤ sizeClassMaxExponent := halvings_le 32 _
  have below := sizeClass_lt small
  unfold sizeClass at below ⊢
  unfold sizeClasses sizeClassMaxSmallSize sizeClassMaxExponent memAlign at *
  split <;> split <;> (try split) <;> (try split) <;> omega

section

variable {heap : GcHeap} {free : Nat → Prop} {lump : Nat}

theorem nonemptyClass_spec (sentinel : heap.lists sizeClasses ≠ 0) (fuel cls : Nat)
    (below : cls ≤ sizeClasses)
    (enough : sizeClasses < cls + fuel) :
    ∃ found, nonemptyClass heap fuel cls = some found ∧
      cls ≤ found ∧ heap.lists found ≠ 0 ∧
      ∀ between, cls ≤ between → between < found → heap.lists between = 0 := by
  induction fuel generalizing cls with
  | zero => omega
  | succ fuel ih =>
      cases empty : decide (heap.lists cls = 0) with
      | false =>
          have nonempty := of_decide_eq_false empty
          exact ⟨cls, by simp [nonemptyClass, nonempty], Nat.le_refl _, nonempty,
            fun between above below => absurd above (Nat.not_le_of_lt below)⟩
      | true =>
          have empty := of_decide_eq_true empty
          have different : cls ≠ sizeClasses := by
            rintro rfl
            exact sentinel empty
          obtain ⟨found, run, le, nonempty, skipped⟩ := ih (cls + 1) (by omega) (by omega)
          refine ⟨found, by simp [nonemptyClass, empty, run], by omega, nonempty, ?_⟩
          intro between above below
          rcases Nat.eq_or_lt_of_le above with rfl | above
          · exact empty
          · exact skipped between above below

theorem Listed.binned {memory : Memory} {lists : Nat → Nat} {chain : Nat → List Nat}
    (listed : Listed memory lists chain) :
    Binned (· < sizeClasses) sizeClass (size memory) chain where
  monotone _ _ le := sizeClass_mono le
  ascending := listed.ascending
  binned := listed.classified

theorem FreeLists.isLump (lists : FreeLists heap free) (member : free lump) :
    IsLump lump := by
  obtain ⟨chain, listed, free_iff⟩ := lists
  obtain ⟨cls, below, inChain⟩ := (free_iff lump).mp member
  exact listed.lumps cls below lump inChain

/-- `find_freelump` returns the smallest free lump that is large enough. -/
theorem findFreelump_spec (lists : FreeLists heap free) (wanted : Nat) :
    ∃ p, findFreelump heap wanted (sizeClass wanted) = some p ∧
      (p ≠ 0 → BestFit free (size heap.memory) wanted p) ∧
      (p = 0 → ∀ q, free q → size heap.memory q < wanted) := by
  obtain ⟨chain, listed, free_iff⟩ := lists
  have below := sizeClass_lt wanted
  obtain ⟨last, linked⟩ := listed.linked _ below
  obtain ⟨left, right, middle, link, found, same, _, second, smaller, atLeast⟩ :=
    seek_spec heap.memory wanted linked (listed.zero_not_mem below)
      (listed.length_lt below)
  rw [findFreelump, found]
  cases right with
  | nil =>
      obtain ⟨_, rfl⟩ := second
      rw [List.append_nil] at same
      obtain ⟨cls, run, larger, nonempty, skipped⟩ :=
        nonemptyClass_spec listed.sentinel (sizeClasses + 1) (sizeClass wanted + 1)
          (by omega) (by omega)
      -- the class of the size holds smaller lumps, and those in between none
      have passed : ∀ q, free q → wanted ≤ size heap.memory q →
          cls ≤ sizeClass (size heap.memory q) := by
        intro q isFree enough
        obtain ⟨c, inRange, member⟩ := (free_iff q).mp isFree
        have class_eq := listed.classified c inRange q member
        have le := sizeClass_mono enough
        rw [class_eq] at le ⊢
        refine Nat.le_of_not_lt fun before => ?_
        rcases Nat.eq_or_lt_of_le le with rfl | above
        · rw [same] at member
          exact absurd enough (Nat.not_le_of_lt (smaller q member))
        · obtain ⟨final, links⟩ := listed.linked c inRange
          rw [skipped c above before] at links
          rcases links.head_mem with ⟨_, empty⟩ | isHead
          · rw [empty] at member
            exact List.not_mem_nil member
          · exact listed.zero_not_mem inRange isHead
      simp only [Option.bind_eq_bind, Option.bind_some, ne_eq, not_true_eq_false,
        if_false, run]
      split
      · rename_i inRange
        refine ⟨_, rfl, fun _ => ?_, fun zero => absurd zero nonempty⟩
        obtain ⟨final, links⟩ := listed.linked cls inRange
        cases cut : chain cls with
        | nil =>
            rw [cut] at links
            exact absurd links.2.symm nonempty
        | cons head rest =>
            rw [cut] at links
            obtain ⟨rfl, _⟩ := links
            exact listed.binned.bestFit_above free_iff inRange (by omega) cut passed
      · rename_i outOfRange
        refine ⟨0, rfl, fun nonzero => absurd rfl nonzero, fun _ q isFree => ?_⟩
        refine Nat.lt_of_not_le fun enough => outOfRange ?_
        exact Nat.lt_of_le_of_lt (passed q isFree enough) (sizeClass_lt _)
  | cons node rest =>
      obtain ⟨rfl, _⟩ := second
      have inChain : link ∈ chain (sizeClass wanted) := by simp [same]
      have nonzero : link ≠ 0 := by
        rintro rfl
        exact listed.zero_not_mem below inChain
      simp only [Option.bind_eq_bind, Option.bind_some, nonzero, ne_eq,
        not_false_eq_true, if_true]
      exact ⟨link, rfl,
        fun _ => listed.binned.bestFit_here free_iff below same smaller (atLeast link rfl),
        fun zero => absurd zero nonzero⟩

end

structure Relinked (touched : Nat → Prop) (memory other : Memory) : Prop where
  sameTags : SameTags memory other
  samePrev : ∀ q, q % 16 = 0 → 0 < q → ¬ touched q → prev other q = prev memory q

def splice (memory : Memory) (before after link back : Nat) : Memory :=
  let memory := if before = 0 then memory else memory.store before link
  if after = 0 then memory else memory.store (after + 4) back

section

variable {memory : Memory} {before after link back q : Nat}

theorem sameTags_splice (alignedBefore : before % 16 = 0)
    (alignedAfter : after % 16 = 0) :
    SameTags memory (splice memory before after link back) := by
  intro address isTag
  unfold splice
  split <;> split
  · rfl
  · exact sameTags_setNext alignedBefore address isTag
  · exact sameTags_setPrev alignedAfter address isTag
  · rw [sameTags_setPrev alignedAfter address isTag,
      sameTags_setNext alignedBefore address isTag]

theorem next_splice_before (nonzero : before ≠ 0) (alignedBefore : before % 16 = 0)
    (alignedAfter : after % 16 = 0) :
    next (splice memory before after link back) before = link := by
  simp only [splice, nonzero, if_false]
  split
  · exact next_setNext_same
  · rw [next_setPrev alignedAfter alignedBefore, next_setNext_same]

theorem next_splice_other (aligned : q % 16 = 0) (alignedAfter : after % 16 = 0)
    (different : q ≠ before) :
    next (splice memory before after link back) q = next memory q := by
  unfold splice
  split <;> split
  · rfl
  · exact next_setPrev alignedAfter aligned
  · exact next_setNext_other different
  · rw [next_setPrev alignedAfter aligned, next_setNext_other different]

theorem prev_splice_after (nonzero : after ≠ 0) :
    prev (splice memory before after link back) after = back := by
  simp only [splice, nonzero, if_false]
  exact prev_setPrev_same

theorem prev_splice_other (aligned : q % 16 = 0) (alignedBefore : before % 16 = 0)
    (different : q ≠ after) :
    prev (splice memory before after link back) q = prev memory q := by
  unfold splice
  split <;> split
  · rfl
  · exact prev_setPrev_other different
  · exact prev_setNext alignedBefore aligned
  · rw [prev_setPrev_other different, prev_setNext alignedBefore aligned]

end

/-- The writes of `insert_freelump` and `remove_freelump`: what stands in front
of a gap gets the link `link`, what stands behind it points back to `back`. -/
structure Spliced (heap heap' : GcHeap) (cls lump before after link back : Nat) :
    Prop where
  sameTags : SameTags heap.memory heap'.memory
  linkFirst : before = 0 → heap'.lists cls = link
  linkInner : before ≠ 0 →
    next heap'.memory before = link ∧ heap'.lists cls = heap.lists cls
  backLink : after ≠ 0 → prev heap'.memory after = back
  sameNext : ∀ q, q % 16 = 0 → q ≠ before → q ≠ lump →
    next heap'.memory q = next heap.memory q
  samePrev : ∀ q, q % 16 = 0 → q ≠ after → q ≠ lump →
    prev heap'.memory q = prev heap.memory q
  sameLists : ∀ other, other ≠ cls → heap'.lists other = heap.lists other

section

variable {heap heap' : GcHeap} {free : Nat → Prop}
  {cls lump before after link back : Nat} {left right : List Nat}

theorem removeFreelump_eq (cls : Nat)
    (alignedLump : lump % 16 = 0)
    (alignedBefore : prev heap.memory lump % 16 = 0)
    (different : prev heap.memory lump ≠ lump) :
    removeFreelump heap lump cls =
      { heap with
        memory := splice heap.memory (prev heap.memory lump)
          (next heap.memory lump) (next heap.memory lump) (prev heap.memory lump)
        lists := fun other =>
          if other = cls ∧ prev heap.memory lump = 0 then next heap.memory lump
          else heap.lists other } := by
  cases first : decide (prev heap.memory lump = 0) with
  | true =>
      have first := of_decide_eq_true first
      simp only [removeFreelump, first, if_true, GcHeap.setList, splice, and_true]
      split <;> rename_i last <;> simp_all [GcHeap.setMemory]
  | false =>
      have first := of_decide_eq_false first
      have keepsNext : next (heap.memory.store (prev heap.memory lump)
          (next heap.memory lump)) lump = next heap.memory lump :=
        next_setNext_other different.symm
      have keepsPrev : prev (heap.memory.store (prev heap.memory lump)
          (next heap.memory lump)) lump = prev heap.memory lump :=
        prev_setNext alignedBefore alignedLump
      simp only [removeFreelump, first, if_false, GcHeap.setMemory, splice,
        and_false, keepsNext, keepsPrev]
      split <;> rename_i last <;> simp_all

theorem removeFreelump_spliced (heap : GcHeap) (cls : Nat)
    (alignedLump : lump % 16 = 0)
    (alignedBefore : prev heap.memory lump % 16 = 0)
    (alignedAfter : next heap.memory lump % 16 = 0)
    (different : prev heap.memory lump ≠ lump) :
    Spliced heap (removeFreelump heap lump cls) cls lump (prev heap.memory lump)
      (next heap.memory lump) (next heap.memory lump) (prev heap.memory lump) := by
  rw [removeFreelump_eq cls alignedLump alignedBefore different]
  exact
    { sameTags := sameTags_splice alignedBefore alignedAfter
      linkFirst := fun zero => by simp [zero]
      linkInner := fun nonzero =>
        ⟨next_splice_before nonzero alignedBefore alignedAfter, by simp [nonzero]⟩
      backLink := fun nonzero => prev_splice_after nonzero
      sameNext := fun q aligned other _ => next_splice_other aligned alignedAfter other
      samePrev := fun q aligned other _ => prev_splice_other aligned alignedBefore other
      sameLists := fun other different => by simp [different] }

/-- The lump between its new neighbours. -/
theorem insertFreelump_spliced
    (found : seek heap.memory (size heap.memory lump) wordSize 0 (heap.lists cls) =
      some (before, after))
    (alignedLump : lump % 16 = 0)
    (alignedBefore : before % 16 = 0)
    (alignedAfter : after % 16 = 0)
    (differentBefore : before ≠ lump)
    (differentAfter : after ≠ lump) :
    ∃ heap', insertFreelump heap lump cls = some heap' ∧
      Spliced heap heap' cls lump before after lump lump ∧
      next heap'.memory lump = after ∧ prev heap'.memory lump = before := by
  let linked := (heap.memory.store (lump + 4) before).store lump after
  have nextLinked : ∀ q, q % 16 = 0 → q ≠ lump →
      next linked q = next heap.memory q := by
    intro q aligned other
    rw [next_setNext_other other, next_setPrev alignedLump aligned]
  have prevLinked : ∀ q, q % 16 = 0 → q ≠ lump →
      prev linked q = prev heap.memory q := by
    intro q aligned other
    rw [prev_setNext alignedLump aligned, prev_setPrev_other other]
  refine ⟨{ heap with
      memory := splice linked before after lump lump
      lists := fun other =>
        if other = cls ∧ before = 0 then lump else heap.lists other }, ?_, ?_, ?_, ?_⟩
  · rw [insertFreelump, found]
    simp only [Option.bind_eq_bind, Option.bind_some, GcHeap.setMemory,
      GcHeap.setList, splice, linked]
    congr 1
    split <;> split <;> simp_all
  · exact
      { sameTags := ((sameTags_setPrev alignedLump).trans
          (sameTags_setNext alignedLump)).trans
            (sameTags_splice alignedBefore alignedAfter)
        linkFirst := fun zero => by simp [zero]
        linkInner := fun nonzero =>
          ⟨next_splice_before nonzero alignedBefore alignedAfter, by simp [nonzero]⟩
        backLink := fun nonzero => prev_splice_after nonzero
        sameNext := fun q aligned other away => by
          rw [next_splice_other aligned alignedAfter other, nextLinked q aligned away]
        samePrev := fun q aligned other away => by
          rw [prev_splice_other aligned alignedBefore other, prevLinked q aligned away]
        sameLists := fun other different => by simp [different] }
  · rw [next_splice_other alignedLump alignedAfter differentBefore.symm]
    exact next_setNext_same
  · rw [prev_splice_other alignedLump alignedBefore differentAfter.symm,
      prev_setNext alignedLump alignedLump, prev_setPrev_same]

theorem Spliced.links {x y last : Nat}
    (spliced : Spliced heap heap' cls lump before after link back)
    (first : Linked (next heap.memory) (prev heap.memory) 0 (heap.lists cls) left
      before x)
    (second : Linked (next heap.memory) (prev heap.memory) y after right last 0)
    (lumps : ∀ p ∈ left ++ right, IsLump p)
    (distinct : (left ++ right).Nodup)
    (fresh : lump ∉ left ++ right) :
    Linked (next heap'.memory) (prev heap'.memory) 0 (heap'.lists cls) left
        before link ∧
      ∃ final, Linked (next heap'.memory) (prev heap'.memory) back after right
        final 0 := by
  obtain ⟨distinctLeft, distinctRight, apart⟩ := List.nodup_append.mp distinct
  have alignedAt : ∀ p ∈ left ++ right, p % 16 = 0 := fun p hp => (lumps p hp).aligned
  have away : ∀ p ∈ left ++ right, p ≠ lump := by
    rintro p hp rfl
    exact fresh hp
  have notAfter : ∀ p ∈ left, p ≠ after := by
    intro p hp same
    rcases second.head_mem with ⟨zero, _⟩ | member
    · have := (lumps p (by simp [hp])).positive
      omega
    · exact apart p hp after member same
  have notBefore : ∀ p ∈ right, p ≠ before := by
    intro p hp same
    rcases first.last_mem with ⟨zero, _⟩ | member
    · have := (lumps p (by simp [hp])).positive
      omega
    · exact apart before member p hp same.symm
  have nonzeroBefore : left ≠ [] → before ≠ 0 := by
    intro nonempty zero
    rcases first.last_mem with ⟨_, empty⟩ | member
    · exact nonempty empty
    · have := (lumps before (by simp [member])).positive
      omega
  constructor
  · rcases first.redirect link distinctLeft
        (fun p hp => spliced.samePrev p (alignedAt p (by simp [hp])) (notAfter p hp)
          (away p (by simp [hp])))
        (fun p hp other => spliced.sameNext p (alignedAt p (by simp [hp])) other
          (away p (by simp [hp])))
        (fun nonempty => (spliced.linkInner (nonzeroBefore nonempty)).1)
      with ⟨rfl, zero⟩ | ⟨nonempty, redirected⟩
    · exact ⟨zero, (spliced.linkFirst zero).symm⟩
    · rw [(spliced.linkInner (nonzeroBefore nonempty)).2]
      exact redirected
  · apply second.rebase distinctRight
    · exact fun p hp => spliced.sameNext p (alignedAt p (by simp [hp]))
        (notBefore p hp) (away p (by simp [hp]))
    · exact fun p hp other => spliced.samePrev p (alignedAt p (by simp [hp])) other
        (away p (by simp [hp]))
    · intro nonempty
      apply spliced.backLink
      intro zero
      have member := second.head_mem.resolve_left (fun empty => nonempty empty.2)
      have := (lumps after (by simp [member])).positive
      omega

private theorem mem_update_iff {chain : Nat → List Nat} {nodes : List Nat} {p : Nat}
    (below : cls < sizeClasses) :
    (∃ c < sizeClasses, p ∈ if c = cls then nodes else chain c) ↔
      p ∈ nodes ∨ ∃ c < sizeClasses, c ≠ cls ∧ p ∈ chain c := by
  constructor
  · rintro ⟨c, hc, member⟩
    split at member
    · exact .inl member
    · rename_i different
      exact .inr ⟨c, hc, different, member⟩
  · rintro (member | ⟨c, hc, different, member⟩)
    · exact ⟨cls, below, by simpa using member⟩
    · exact ⟨c, hc, by simpa [different] using member⟩

private theorem Spliced.otherLists {chain : Nat → List Nat}
    (spliced : Spliced heap heap' cls lump before after link back)
    (listed : Listed heap.memory heap.lists chain)
    (below : cls < sizeClasses)
    (beforeMem : before = 0 ∨ before ∈ chain cls)
    (afterMem : after = 0 ∨ after ∈ chain cls)
    (lumpAway : ∀ c < sizeClasses, c ≠ cls → lump ∉ chain c) :
    ∀ c < sizeClasses, c ≠ cls → ∀ p ∈ chain c,
      next heap'.memory p = next heap.memory p ∧
        prev heap'.memory p = prev heap.memory p := by
  intro c hc different p member
  have lumpP := listed.lumps c hc p member
  have away : ∀ q, q = 0 ∨ q ∈ chain cls → p ≠ q := by
    rintro q (rfl | inList) rfl
    · exact absurd lumpP.positive (Nat.lt_irrefl 0)
    · exact different ((listed.classified c hc p member).symm.trans
        (listed.classified cls below p inList))
  have notLump : p ≠ lump := by
    rintro rfl
    exact lumpAway c hc different member
  exact ⟨spliced.sameNext p lumpP.aligned (away before beforeMem) notLump,
    spliced.samePrev p lumpP.aligned (away after afterMem) notLump⟩

theorem removeFreelump_spec (lists : FreeLists heap free) (member : free lump) :
    FreeLists (removeFreelump heap lump (sizeClass (size heap.memory lump)))
        (fun p => free p ∧ p ≠ lump) ∧
      Relinked free heap.memory
        (removeFreelump heap lump (sizeClass (size heap.memory lump))).memory := by
  obtain ⟨chain, listed, free_iff⟩ := lists
  obtain ⟨cls, below, inChain⟩ := (free_iff lump).mp member
  rw [listed.classified cls below lump inChain]
  obtain ⟨last, linked⟩ := listed.linked cls below
  obtain ⟨left, right, same⟩ := List.append_of_mem inChain
  have distinct := listed.distinct cls below
  have lumps := listed.lumps cls below
  rw [same] at linked distinct
  obtain ⟨before, link, first, rfl, back, second⟩ := Linked.append_iff.mp linked
  have fresh : link ∉ left ++ right := by
    have := (List.perm_middle.nodup_iff.mp distinct)
    exact (List.nodup_cons.mp this).1
  have distinct : (left ++ right).Nodup :=
    (List.nodup_cons.mp (List.perm_middle.nodup_iff.mp distinct)).2
  have members : ∀ p, p ∈ left ++ right → p ∈ chain cls := by
    intro p hp
    rw [same]
    simp only [List.mem_append, List.mem_cons] at hp ⊢
    exact hp.elim .inl (fun h => .inr (.inr h))
  have beforeMem : before = 0 ∨ before ∈ left :=
    first.last_mem.imp_left (·.1)
  have afterMem : next heap.memory link = 0 ∨ next heap.memory link ∈ right :=
    second.head_mem.imp_left (·.1)
  have alignedOf : ∀ q, q = 0 ∨ q ∈ left ++ right → q % 16 = 0 := by
    rintro q (rfl | hq)
    · rfl
    · exact (lumps q (members q hq)).aligned
  have spliced := removeFreelump_spliced heap cls
    (lumps link inChain).aligned
    (alignedOf _ (by rw [back]; exact beforeMem.imp_right (by simp +contextual)))
    (alignedOf _ (afterMem.imp_right (by simp +contextual)))
    (by
      rw [back]
      rintro rfl
      rcases beforeMem with zero | inLeft
      · have := (lumps before inChain).positive
        omega
      · exact fresh (by simp [inLeft]))
  rw [back] at spliced
  have links := spliced.links first second
    (fun p hp => lumps p (members p hp)) distinct fresh
  obtain ⟨firstLinks, final, secondLinks⟩ := links
  have untouched : ∀ q, q % 16 = 0 → 0 < q → ¬ free q →
      prev (removeFreelump heap link cls).memory q = prev heap.memory q := by
    intro q aligned positive notFree
    apply spliced.samePrev q aligned
    · rintro rfl
      rcases afterMem with zero | inRight
      · omega
      · exact notFree ((free_iff _).mpr ⟨cls, below, members _ (by simp [inRight])⟩)
    · rintro rfl
      exact notFree member
  refine ⟨⟨fun c => if c = cls then left ++ right else chain c, ?_, ?_⟩,
    spliced.sameTags, untouched⟩
  · have sublist : (left ++ right).Sublist (chain cls) := by
      rw [same]
      exact (List.Sublist.refl left).append (List.sublist_cons_self _ _)
    refine listed.update below ?_ distinct ?_ ?_ ?_ ?_ ?_ ?_
    · exact ⟨final, Linked.append_iff.mpr ⟨before, _, firstLinks, secondLinks⟩⟩
    · apply ((listed.ascending cls below).sublist sublist).imp_of_mem
      intro p q hp hq le
      rwa [spliced.sameTags.size_eq (lumps p (members p hp)),
        spliced.sameTags.size_eq (lumps q (members q hq))]
    · intro p hp
      rw [spliced.sameTags.size_eq (lumps p (members p hp))]
      exact listed.classified cls below p (members p hp)
    · exact fun p hp => lumps p (members p hp)
    · exact spliced.sameLists
    · exact spliced.sameTags
    · apply spliced.otherLists listed below
      · exact beforeMem.imp_right fun h => members before (by simp [h])
      · exact afterMem.imp_right fun h => members _ (by simp [h])
      · intro c hc different inOther
        exact different ((listed.classified c hc link inOther).symm.trans
          (listed.classified cls below link inChain))
  · intro p
    change free p ∧ p ≠ link ↔ _
    rw [mem_update_iff below, free_iff]
    constructor
    · rintro ⟨⟨c, hc, hp⟩, different⟩
      cases isClass : decide (c = cls) with
      | true =>
          obtain rfl := of_decide_eq_true isClass
          rw [same] at hp
          simp only [List.mem_append, List.mem_cons] at hp ⊢
          rcases hp with hp | rfl | hp
          · exact .inl (.inl hp)
          · exact absurd rfl different
          · exact .inl (.inr hp)
      | false => exact .inr ⟨c, hc, of_decide_eq_false isClass, hp⟩
    · rintro (hp | ⟨c, hc, different, hp⟩)
      · refine ⟨⟨cls, below, members p hp⟩, ?_⟩
        rintro rfl
        exact fresh hp
      · refine ⟨⟨c, hc, hp⟩, ?_⟩
        rintro rfl
        exact different ((listed.classified c hc p hp).symm.trans
          (listed.classified cls below p inChain))

theorem insertFreelump_spec (lists : FreeLists heap free) (isLump : IsLump lump)
    (notFree : ¬ free lump) :
    ∃ heap', insertFreelump heap lump (sizeClass (size heap.memory lump)) =
        some heap' ∧
      FreeLists heap' (fun p => p = lump ∨ free p) ∧
      Relinked (fun p => p = lump ∨ free p) heap.memory heap'.memory := by
  obtain ⟨chain, listed, free_iff⟩ := lists
  have below := sizeClass_lt (size heap.memory lump)
  generalize class_eq : sizeClass (size heap.memory lump) = cls at below
  have absent : ∀ c < sizeClasses, lump ∉ chain c := fun c hc hp =>
    notFree ((free_iff lump).mpr ⟨c, hc, hp⟩)
  obtain ⟨last, linked⟩ := listed.linked cls below
  have distinct := listed.distinct cls below
  have lumps := listed.lumps cls below
  obtain ⟨left, right, before, after, found, same, first, second, smaller, atLeast⟩ :=
    seek_spec heap.memory (size heap.memory lump) linked (listed.zero_not_mem below)
      (listed.length_lt below)
  have members : ∀ p, p ∈ left ++ right ↔ p ∈ chain cls := by simp [same]
  have fresh : lump ∉ left ++ right := fun hp =>
    absent cls below ((members lump).mp hp)
  rw [same] at distinct
  have beforeMem : before = 0 ∨ before ∈ chain cls :=
    first.last_mem.imp (·.1) fun h => (members before).mp (by simp [h])
  have afterMem : after = 0 ∨ after ∈ chain cls :=
    second.head_mem.imp (·.1) fun h => (members after).mp (by simp [h])
  have aligned : ∀ q, q = 0 ∨ q ∈ chain cls → q % 16 = 0 := by
    rintro q (rfl | hq)
    · rfl
    · exact (lumps q hq).aligned
  have different : ∀ q, q = 0 ∨ q ∈ chain cls → q ≠ lump := by
    rintro q (rfl | hq) rfl
    · exact absurd isLump.positive (Nat.lt_irrefl 0)
    · exact absent cls below hq
  obtain ⟨heap', run, spliced, nextLump, prevLump⟩ :=
    insertFreelump_spliced found isLump.aligned (aligned before beforeMem)
      (aligned after afterMem) (different before beforeMem) (different after afterMem)
  obtain ⟨firstLinks, final, secondLinks⟩ := spliced.links first second
    (fun p hp => lumps p ((members p).mp hp)) distinct fresh
  have sizes : ∀ p, p = lump ∨ p ∈ chain cls →
      size heap'.memory p = size heap.memory p := by
    rintro p (rfl | hp)
    · exact spliced.sameTags.size_eq isLump
    · exact spliced.sameTags.size_eq (lumps p hp)
  have mem_nodes : ∀ p, p ∈ left ++ lump :: right ↔ p = lump ∨ p ∈ chain cls := by
    intro p
    rw [← members]
    simp only [List.mem_append, List.mem_cons]
    tauto
  have untouched : ∀ q, q % 16 = 0 → 0 < q → ¬ (q = lump ∨ free q) →
      prev heap'.memory q = prev heap.memory q := by
    intro q alignedQ positive notTouched
    apply spliced.samePrev q alignedQ
    · rintro rfl
      rcases afterMem with zero | inChain
      · omega
      · exact notTouched (.inr ((free_iff _).mpr ⟨cls, below, inChain⟩))
    · exact fun same => notTouched (.inl same)
  refine ⟨heap', run, ⟨fun c => if c = cls then left ++ lump :: right else chain c,
    ?_, ?_⟩, spliced.sameTags, untouched⟩
  · refine listed.update below ?_ ?_ ?_ ?_ ?_ ?_ ?_ ?_
    · refine ⟨final, Linked.append_iff.mpr ⟨before, lump, firstLinks, rfl, prevLump, ?_⟩⟩
      rw [nextLump]
      exact secondLinks
    · rw [List.perm_middle.nodup_iff]
      exact List.nodup_cons.mpr ⟨fresh, distinct⟩
    · have ascending := listed.ascending cls below
      rw [same] at ascending
      have larger : ∀ p ∈ right, size heap.memory lump ≤ size heap.memory p := by
        intro p hp
        cases right with
        | nil => simp at hp
        | cons node rest =>
            have first := atLeast node (by simp)
            have sorted := (List.pairwise_append.mp ascending).2.1
            rcases List.mem_cons.mp hp with rfl | hp
            · exact first
            · exact Nat.le_trans first ((List.pairwise_cons.mp sorted).1 p hp)
      have sorted : (left ++ lump :: right).Pairwise fun p q =>
          size heap.memory p ≤ size heap.memory q := by
        obtain ⟨leftSorted, rightSorted, across⟩ := List.pairwise_append.mp ascending
        refine List.pairwise_append.mpr ⟨leftSorted,
          List.pairwise_cons.mpr ⟨larger, rightSorted⟩, ?_⟩
        intro p hp q hq
        rcases List.mem_cons.mp hq with rfl | hq
        · exact Nat.le_of_lt (smaller p hp)
        · exact across p hp q hq
      apply sorted.imp_of_mem
      intro p q hp hq le
      rwa [sizes p ((mem_nodes p).mp hp), sizes q ((mem_nodes q).mp hq)]
    · intro p hp
      rw [sizes p ((mem_nodes p).mp hp)]
      rcases (mem_nodes p).mp hp with rfl | hp
      · exact class_eq
      · exact listed.classified cls below p hp
    · intro p hp
      rcases (mem_nodes p).mp hp with rfl | hp
      · exact isLump
      · exact lumps p hp
    · exact spliced.sameLists
    · exact spliced.sameTags
    · exact spliced.otherLists listed below beforeMem afterMem
        (fun c hc _ => absent c hc)
  · intro p
    change p = lump ∨ free p ↔ _
    rw [mem_update_iff below, free_iff, mem_nodes]
    constructor
    · rintro (rfl | ⟨c, hc, hp⟩)
      · exact .inl (.inl rfl)
      · cases isClass : decide (c = cls) with
        | true =>
            obtain rfl := of_decide_eq_true isClass
            exact .inl (.inr hp)
        | false => exact .inr ⟨c, hc, of_decide_eq_false isClass, hp⟩
    · rintro ((rfl | hp) | ⟨c, hc, _, hp⟩)
      · exact .inl rfl
      · exact .inr ⟨cls, below, hp⟩
      · exact .inr ⟨c, hc, hp⟩

/-- Nothing but links of `touched` lumps has changed. -/
def LinksOnly (touched : Nat → Prop) (memory other : Memory) : Prop :=
  ∀ address, (∀ q, touched q → address ≠ q ∧ address ≠ q + 4) →
    other address = memory address

theorem FreeLists.neighbours (lists : FreeLists heap free) (member : free lump) :
    (prev heap.memory lump ≠ 0 → free (prev heap.memory lump)) ∧
      (next heap.memory lump ≠ 0 → free (next heap.memory lump)) ∧
      prev heap.memory lump ≠ lump := by
  obtain ⟨chain, listed, free_iff⟩ := lists
  obtain ⟨cls, below, inChain⟩ := (free_iff lump).mp member
  obtain ⟨last, linked⟩ := listed.linked cls below
  obtain ⟨left, right, same⟩ := List.append_of_mem inChain
  have distinct := listed.distinct cls below
  rw [same] at linked distinct
  obtain ⟨before, link, first, rfl, back, second⟩ := Linked.append_iff.mp linked
  have listedFree : ∀ q, q ∈ left ∨ q ∈ right → free q := by
    intro q inList
    refine (free_iff q).mpr ⟨cls, below, ?_⟩
    rw [same]
    simp only [List.mem_append, List.mem_cons]
    exact inList.imp_right .inr
  rw [back]
  refine ⟨fun nonzero => ?_, fun nonzero => ?_, ?_⟩
  · exact listedFree _ (.inl (first.last_mem.resolve_left fun empty => nonzero empty.1))
  · exact listedFree _ (.inr (second.head_mem.resolve_left fun empty => nonzero empty.1))
  · rintro rfl
    rcases first.last_mem with ⟨zero, _⟩ | inLeft
    · have := (listed.lumps cls below before inChain).positive
      omega
    · exact (List.nodup_append.mp distinct).2.2 before inLeft before List.mem_cons_self rfl

theorem removeFreelump_linksOnly (lists : FreeLists heap free) (member : free lump)
    (cls : Nat) : LinksOnly free heap.memory (removeFreelump heap lump cls).memory := by
  obtain ⟨before, after, different⟩ := lists.neighbours member
  intro address away
  cases first : decide (prev heap.memory lump = 0) with
  | true =>
      rw [removeFreelump, if_pos (of_decide_eq_true first)]
      split
      · rename_i nonzero
        exact Memory.store_other _ _ (away _ (after nonzero)).2
      · rfl
  | false =>
      have inner := of_decide_eq_false first
      have keepsNext : next (heap.memory.store (prev heap.memory lump)
          (next heap.memory lump)) lump = next heap.memory lump :=
        next_setNext_other different.symm
      rw [removeFreelump, if_neg inner, GcHeap.setMemory_memory, keepsNext]
      split
      · rename_i nonzero
        rw [GcHeap.setMemory_memory, Memory.store_other _ _ (away _ (after nonzero)).2]
        exact Memory.store_other _ _ (away _ (before inner)).1
      · exact Memory.store_other _ _ (away _ (before inner)).1

theorem FreeLists.seek_free (lists : FreeLists heap free) {cls wanted before after : Nat}
    (below : cls < sizeClasses)
    (found : seek heap.memory wanted wordSize 0 (heap.lists cls) = some (before, after)) :
    (before ≠ 0 → free before) ∧ (after ≠ 0 → free after) := by
  obtain ⟨chain, listed, free_iff⟩ := lists
  obtain ⟨last, linked⟩ := listed.linked cls below
  obtain ⟨left, right, middle, link, found', same, first, second, _⟩ :=
    seek_spec heap.memory wanted linked (listed.zero_not_mem below) (listed.length_lt below)
  rw [found] at found'
  obtain ⟨rfl, rfl⟩ := Prod.mk.inj (Option.some.inj found')
  have listedFree : ∀ q, q ∈ left ++ right → free q := by
    intro q inList
    rw [← same] at inList
    exact (free_iff q).mpr ⟨cls, below, inList⟩
  constructor
  · intro nonzero
    exact listedFree _ (List.mem_append_left _
      (first.last_mem.resolve_left fun empty => nonzero empty.1))
  · intro nonzero
    exact listedFree _ (List.mem_append_right _
      (second.head_mem.resolve_left fun empty => nonzero empty.1))

theorem insertFreelump_linksOnly (lists : FreeLists heap free) {cls : Nat}
    (below : cls < sizeClasses) (run : insertFreelump heap lump cls = some heap') :
    LinksOnly (fun p => p = lump ∨ free p) heap.memory heap'.memory := by
  obtain ⟨⟨before, after⟩, found, run⟩ := Option.bind_eq_some_iff.mp run
  obtain ⟨beforeFree, afterFree⟩ := lists.seek_free below found
  obtain rfl := Option.some.inj run
  intro address away
  obtain ⟨notNext, notPrev⟩ := away lump (.inl rfl)
  have linked : ((heap.setMemory (lump + 4) before).setMemory lump after).memory address =
      heap.memory address := by
    rw [GcHeap.setMemory_memory, Memory.store_other _ _ notNext, GcHeap.setMemory_memory,
      Memory.store_other _ _ notPrev]
  generalize (heap.setMemory (lump + 4) before).setMemory lump after = middle at linked ⊢
  have relinked : (if before = 0 then middle.setList cls lump
      else middle.setMemory before lump).memory address = heap.memory address := by
    split
    · exact linked
    · rename_i nonzero
      rw [GcHeap.setMemory_memory,
        Memory.store_other _ _ (away before (.inr (beforeFree nonzero))).1]
      exact linked
  split
  · rename_i nonzero
    rw [GcHeap.setMemory_memory,
      Memory.store_other _ _ (away after (.inr (afterFree nonzero))).2]
    exact relinked
  · exact relinked

theorem FreeLists.congr (lists : FreeLists heap free)
    (sameLists : heap'.lists = heap.lists)
    (sameNext : ∀ p, free p → next heap'.memory p = next heap.memory p)
    (samePrev : ∀ p, free p → prev heap'.memory p = prev heap.memory p)
    (sameSize : ∀ p, free p → size heap'.memory p = size heap.memory p) :
    FreeLists heap' free := by
  obtain ⟨chain, listed, free_iff⟩ := lists
  refine ⟨chain, ?_, free_iff⟩
  rw [sameLists]
  exact listed.congr
    (fun cls below p member => sameNext p ((free_iff p).mpr ⟨cls, below, member⟩))
    (fun cls below p member => samePrev p ((free_iff p).mpr ⟨cls, below, member⟩))
    (fun cls below p member => sameSize p ((free_iff p).mpr ⟨cls, below, member⟩))

theorem FreeLists.setTag (lists : FreeLists heap free) (address value : Nat)
    (isTag : address % 16 = 8 ∨ address % 16 = 12)
    (away : ∀ p, free p → header p ≠ address) :
    FreeLists (heap.setMemory address value) free := by
  apply lists.congr
  · rfl
  · intro p member
    have := (lists.isLump member).aligned
    exact Memory.store_other heap.memory value (by omega)
  · intro p member
    have := (lists.isLump member).aligned
    exact Memory.store_other heap.memory value (by omega)
  · intro p member
    exact congrArg maskSize (Memory.store_other heap.memory value (away p member))

theorem FreeLists.setFooter (lists : FreeLists heap free) {address : Nat} (value : Nat)
    (isFooter : address % 16 = 8) : FreeLists (heap.setMemory address value) free := by
  apply lists.setTag _ value (.inl isFooter)
  intro p member
  obtain ⟨aligned, positive, _⟩ := lists.isLump member
  unfold header gcHead
  omega

theorem FreeLists.setHeader (lists : FreeLists heap free) (value : Nat) (isLump : IsLump lump)
    (notFree : ¬ free lump) : FreeLists (heap.setMemory (header lump) value) free := by
  obtain ⟨aligned, positive, _⟩ := isLump
  apply lists.setTag _ value
  · unfold header gcHead
    omega
  · intro p member same
    obtain ⟨alignedP, positiveP, _⟩ := lists.isLump member
    unfold header gcHead at same
    obtain rfl : p = lump := by omega
    exact notFree member

theorem FreeLists.reflag (lists : FreeLists heap free) {p value : Nat}
    (aligned : p % 16 = 0) (positive : 0 < p)
    (same : maskSize value = maskSize (heap.memory (header p))) :
    FreeLists (heap.setMemory (header p) value) free := by
  apply lists.congr
  · rfl
  · intro q member
    have := (lists.isLump member).aligned
    apply Memory.store_other
    unfold header gcHead
    omega
  · intro q member
    have := (lists.isLump member).aligned
    apply Memory.store_other
    unfold header gcHead
    omega
  · exact fun q _ => size_reflag same q

end

end LaTTe.Gc.Manual
