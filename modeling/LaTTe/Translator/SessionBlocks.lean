import LaTTe.Translator.Session
import Mathlib.Data.List.Pairwise
import Mathlib.Algebra.Group.Nat.Defs

namespace LaTTe.Translator.Sma

open LaTTe.Data

/-! The blocks of a session over any run without a sixteenth heap block. -/

namespace Range

variable {range other whole : Range}

theorem Apart.symm (apart : range.Apart other) : other.Apart range :=
  Or.symm apart

instance : Std.Symm Range.Apart :=
  ⟨fun _ _ => Apart.symm⟩

theorem Apart.of_inside (apart : whole.Apart other) (inside : range.Inside whole) :
    range.Apart other := by
  unfold Apart at apart ⊢
  unfold Inside at inside
  omega

end Range

structure Owned (s : Session) (live : List Range) : Prop where
  bound : s.heapStackSize ≤ maxSizeOfHeapStack
  listed : ∀ i < s.heapStackSize, s.heapAt i ∈ live
  unused : ∀ i, s.heapStackSize ≤ i → s.heapStack i = 0
  distinct : ∀ i j, i < s.heapStackSize → j < s.heapStackSize →
    s.heapStack i = s.heapStack j → i = j
  apart : live.Pairwise Range.Apart
  valid : ∀ heap ∈ live, 0 < heap.address ∧ heap.address % 8 = 0 ∧ 0 < heap.size

namespace Owned

variable {s next : Session} {live rest : List Range} {index : Nat} {size heap : Int}

theorem heapAt_setHeap : (s.setHeap index size heap).heapAt index = ⟨heap, size⟩ := by
  simp [Session.heapAt, Session.setHeap]

theorem heapAt_setHeap_of_ne {i : Nat} (other : i ≠ index) :
    (s.setHeap index size heap).heapAt i = s.heapAt i := by
  simp [Session.heapAt, Session.setHeap, other]

theorem mem_discard (s : Session) (live : List Range) (index : Nat) (other : Range) :
    other ∈ s.discard live index ↔
      other ∈ live ∧ (s.heapStack index = 0 ∨ other.address ≠ s.heapStack index) := by
  rw [Session.discard]
  split
  · rename_i null
    exact ⟨fun member => ⟨member, .inl null⟩, And.left⟩
  · rename_i used
    rw [List.mem_filter, decide_eq_true_eq]
    exact and_congr_right fun _ => ⟨.inr, fun other => other.resolve_left used⟩

theorem heapAt_apart (owned : Owned s live) {i j : Nat} (low : i < s.heapStackSize)
    (high : j < s.heapStackSize) (different : i ≠ j) : (s.heapAt i).Apart (s.heapAt j) := by
  apply owned.apart.forall (owned.listed i low) (owned.listed j high)
  intro same
  exact different (owned.distinct i j low high (congrArg Range.address same))

theorem mem_discard_heapAt (owned : Owned s live) {i : Nat} (below : i < s.heapStackSize)
    (other : i ≠ index) : s.heapAt i ∈ s.discard live index := by
  rw [mem_discard]
  refine ⟨owned.listed i below, ?_⟩
  rcases Nat.lt_or_ge index s.heapStackSize with inside | beyond
  · exact .inr fun same => other (owned.distinct i index below inside same)
  · exact .inl (owned.unused index beyond)

/-- A new heap block in the place of an old one, or behind the last one. -/
theorem setHeap (owned : Owned s live) (next_to : index ≤ s.heapStackSize)
    (inside : index < maxSizeOfHeapStack) (positive : 0 < size)
    (fresh : Fresh (s.discard live index) ⟨heap, size⟩) (count : Nat)
    (enough : index < count) (least : s.heapStackSize ≤ count)
    (most : count ≤ s.heapStackSize ∨ count = index + 1) :
    Owned ((s.grown count).setHeap index size heap)
      (⟨heap, size⟩ :: s.discard live index) := by
  have bound := owned.bound
  have clash : ∀ i < count, i ≠ index → s.heapStack i ≠ heap := by
    intro i below other same
    have member := owned.mem_discard_heapAt (by omega) other
    have apart := fresh.2.2 _ member
    have size := (owned.valid _ (owned.listed i (by omega))).2.2
    unfold Range.Apart Session.heapAt at *
    dsimp only at apart size
    omega
  constructor
  · change count ≤ maxSizeOfHeapStack
    omega
  · intro i below
    rcases eq_or_ne i index with rfl | other
    · rw [heapAt_setHeap]
      exact List.mem_cons_self
    · rw [heapAt_setHeap_of_ne other]
      refine List.mem_cons_of_mem _ (owned.mem_discard_heapAt ?_ other)
      change i < count at below
      omega
  · intro i beyond
    change count ≤ i at beyond
    change Function.update s.heapStack index heap i = 0
    rw [Function.update_of_ne (by omega)]
    exact owned.unused i (by omega)
  · intro i j
    change i < count → j < count → Function.update s.heapStack index heap i =
      Function.update s.heapStack index heap j → i = j
    intro low high same
    rcases eq_or_ne i index with rfl | first
    · rcases eq_or_ne j i with rfl | second
      · rfl
      · rw [Function.update_self, Function.update_of_ne second] at same
        exact absurd same.symm (clash j high second)
    · rcases eq_or_ne j index with rfl | second
      · rw [Function.update_self, Function.update_of_ne first] at same
        exact absurd same (clash i low first)
      · rw [Function.update_of_ne first, Function.update_of_ne second] at same
        exact owned.distinct i j (by omega) (by omega) same
  · refine List.pairwise_cons.mpr ⟨fresh.2.2, ?_⟩
    rw [Session.discard]
    split
    · exact owned.apart
    · exact owned.apart.filter _
  · intro other member
    rcases List.mem_cons.mp member with rfl | member
    · exact ⟨fresh.1, fresh.2.1, positive⟩
    · exact owned.valid other ((mem_discard s live index other).mp member).1

end Owned

structure Ready (s : Session) (live : List Range) (blocks : List Block) : Prop where
  owned : Owned s live
  index : s.currentHeapIndex < s.heapStackSize
  heap : s.currentHeap = s.heapStack s.currentHeapIndex
  size : s.currentHeapSize = s.heapSizeStack s.currentHeapIndex
  nonneg : 0 ≤ s.currentHeapFreeSize
  le : s.currentHeapFreeSize ≤ s.currentHeapSize
  aligned : (s.currentHeapSize - s.currentHeapFreeSize) % 8 = 0
  filled : ∀ block ∈ blocks, ∃ i ≤ s.currentHeapIndex, block.range.Inside (s.heapAt i) ∧
    (i = s.currentHeapIndex → block.range.address + block.range.size ≤
      s.currentHeap + (s.currentHeapSize - s.currentHeapFreeSize))

structure Increased (live : List Range) (blocks : List Block) (size : Int) (next : Session)
    (rest : List Range) : Prop where
  ready : Ready next rest blocks
  room : size ≤ next.currentHeapFreeSize
  kept : ∀ heap ∈ live, heap ∉ rest → ∀ block ∈ blocks, block.range.Apart heap

namespace Ready

variable {s next : Session} {live rest : List Range} {blocks : List Block} {index fuel : Nat}
  {size heap : Int}

theorem useHeap (owned : Owned s live) (below : index < s.heapStackSize)
    (filled : ∀ block ∈ blocks, ∃ i < index, block.range.Inside (s.heapAt i)) :
    Ready (s.useHeap index) live blocks where
  owned := ⟨owned.bound, owned.listed, owned.unused, owned.distinct, owned.apart, owned.valid⟩
  index := below
  heap := rfl
  size := rfl
  nonneg := Int.le_of_lt (owned.valid _ (owned.listed index below)).2.2
  le := Int.le_refl _
  aligned := by
    change (s.heapSizeStack index - s.heapSizeStack index) % 8 = 0
    rw [Int.sub_self]
    rfl
  filled := by
    intro block member
    obtain ⟨i, before, inside⟩ := filled block member
    exact ⟨i, Nat.le_of_lt before, inside, fun same => absurd same (Nat.ne_of_lt before)⟩

/-- Neither the heap blocks up to the current one nor their blocks are touched. -/
theorem replaceHeap (ready : Ready s live blocks) (index_eq : index = s.currentHeapIndex + 1)
    (le : index ≤ s.heapStackSize) (count : Nat) (least : s.heapStackSize ≤ count)
    (most : count ≤ s.heapStackSize ∨ count = index + 1) {t : Session}
    (same : t.heapStack = s.heapStack ∧ t.heapSizeStack = s.heapSizeStack ∧
      t.heapStackSize = count)
    (run : t.replaceHeap fuel live index size heap = .ok (next, rest)) :
    Increased live blocks size next rest := by
  obtain ⟨new, room, below, positive, inside, fresh, rfl, rfl⟩ := Session.replaceHeap_ok run
  obtain ⟨heaps, sizes, rfl⟩ := same
  have discarded : t.discard live index = s.discard live index := by
    rw [Session.discard, Session.discard, heaps]
  have at_eq : ∀ i, t.heapAt i = s.heapAt i := by
    intro i
    rw [Session.heapAt, Session.heapAt, heaps, sizes]
  rw [discarded] at fresh ⊢
  have before : ∀ i ≤ s.currentHeapIndex, i < s.heapStackSize ∧ i ≠ index := by
    have index := ready.index
    omega
  have owned := ready.owned.setHeap le inside positive fresh t.heapStackSize below least most
  have owned' : Owned (t.setHeap index new heap) (⟨heap, new⟩ :: s.discard live index) := by
    refine ⟨owned.bound, ?_, ?_, ?_, owned.apart, owned.valid⟩
    · intro i low
      rw [Session.heapAt, Session.setHeap, heaps, sizes]
      exact owned.listed i low
    · intro i high
      rw [Session.setHeap, heaps]
      exact owned.unused i high
    · rw [Session.setHeap, heaps]
      exact owned.distinct
  have filled : ∀ block ∈ blocks, ∃ i < index,
      block.range.Inside ((t.setHeap index new heap).heapAt i) := by
    intro block member
    obtain ⟨i, low, inside, _⟩ := ready.filled block member
    refine ⟨i, by omega, ?_⟩
    rw [Owned.heapAt_setHeap_of_ne (before i low).2, at_eq]
    exact inside
  refine ⟨useHeap owned' below filled, ?_, ?_⟩
  · change size ≤ Function.update t.heapSizeStack index new index
    rw [Function.update_self]
    exact Int.le_of_lt room
  · intro freed listed gone block member
    obtain ⟨i, low, inside, _⟩ := ready.filled block member
    refine Range.Apart.of_inside ?_ inside
    apply ready.owned.apart.forall (ready.owned.listed i (before i low).1) listed
    rintro rfl
    exact gone (List.mem_cons_of_mem _ (ready.owned.mem_discard_heapAt (before i low).1
      (before i low).2))

theorem increaseHeap (ready : Ready s live blocks)
    (run : s.increaseHeap fuel live size heap = .ok (next, rest)) :
    Increased live blocks size next rest := by
  have bound := ready.owned.bound
  rw [Session.increaseHeap] at run
  split at run
  · rename_i another
    rw [Session.setCurrentHeap_eq another (by omega)] at run
    change (if (s.useHeap (s.currentHeapIndex + 1)).currentHeapFreeSize < size then
      (s.useHeap (s.currentHeapIndex + 1)).replaceHeap fuel live (s.currentHeapIndex + 1) size heap
      else .ok (s.useHeap (s.currentHeapIndex + 1), live)) = _ at run
    split at run
    · exact ready.replaceHeap (t := s.useHeap (s.currentHeapIndex + 1)) rfl
        (Nat.le_of_lt another) s.heapStackSize (Nat.le_refl _) (.inl (Nat.le_refl _))
        ⟨rfl, rfl, rfl⟩ run
    · rename_i enough
      cases run
      refine ⟨useHeap ready.owned another ?_, Int.not_lt.mp enough,
        fun heap listed gone => absurd listed gone⟩
      intro block member
      obtain ⟨i, low, inside, _⟩ := ready.filled block member
      exact ⟨i, Nat.lt_succ_of_le low, inside⟩
  · rename_i last
    have index := ready.index
    have index_eq : s.heapStackSize = s.currentHeapIndex + 1 := by omega
    exact ready.replaceHeap (t := s.grown (s.heapStackSize + 1)) index_eq (Nat.le_refl _)
      (s.heapStackSize + 1) (Nat.le_succ _) (.inr rfl) ⟨rfl, rfl, rfl⟩ run

theorem increaseHeap_overrun (ready : Ready s live blocks)
    (run : s.increaseHeap fuel live size heap = .error .overrun) :
    maxSizeOfHeapStack ≤ s.currentHeapIndex + 1 := by
  have bound := ready.owned.bound
  have index := ready.index
  rw [Session.increaseHeap] at run
  split at run
  · rename_i another
    rw [Session.setCurrentHeap_eq another (by omega)] at run
    change (if (s.useHeap (s.currentHeapIndex + 1)).currentHeapFreeSize < size then
      (s.useHeap (s.currentHeapIndex + 1)).replaceHeap fuel live (s.currentHeapIndex + 1) size heap
      else .ok (s.useHeap (s.currentHeapIndex + 1), live)) = _ at run
    split at run
    · exact Session.replaceHeap_overrun run
    · cases run
  · have most := Session.replaceHeap_overrun run
    omega

theorem increaseHeap_not_ok (ready : Ready s live blocks)
    (full : maxSizeOfHeapStack ≤ s.currentHeapIndex + 1) :
    s.increaseHeap fuel live size heap ≠ .ok (next, rest) := by
  intro run
  have bound := ready.owned.bound
  have index := ready.index
  rw [Session.increaseHeap, if_neg (by omega)] at run
  obtain ⟨_, _, _, _, inside, _⟩ := Session.replaceHeap_ok run
  omega

end Ready

namespace World

variable {w next : World} {request fuel : Nat} {heap : Int}

structure Good (w : World) : Prop where
  intact : w.overrun = false
  ready : Ready w.session w.live w.blocks
  apart : w.blocks.Pairwise fun block other => block.range.Apart other.range
  large : ∀ block ∈ w.blocks, block.request ≤ block.range.size
  aligned : ∀ block ∈ w.blocks, block.range.address % 8 = 0

theorem roundUp_spec (request : Nat) :
    (request : Int) ≤ roundUp request ∧ 0 < roundUp request ∧ roundUp request % 8 = 0 := by
  unfold roundUp
  omega

namespace Good

theorem sound (good : w.Good) : w.Sound where
  intact := good.intact
  inside := by
    intro block member
    obtain ⟨i, low, inside, _⟩ := good.ready.filled block member
    have below := Nat.lt_of_le_of_lt low good.ready.index
    exact ⟨i, below, good.ready.owned.listed i below, inside⟩
  apart := good.apart
  large := good.large
  aligned := good.aligned

/-- The next block of the current heap block, if it has room. -/
theorem take (good : w.Good) {session : Session} {live : List Range}
    (ready : Ready session live w.blocks)
    (room : roundUp request ≤ session.currentHeapFreeSize) :
    (w.take session live request).Good := by
  obtain ⟨requested, positive, unit⟩ := roundUp_spec request
  have nonneg := ready.nonneg
  have le := ready.le
  have used := ready.aligned
  have valid := ready.owned.valid _ (ready.owned.listed _ ready.index)
  have here : session.heapAt session.currentHeapIndex =
      ⟨session.currentHeap, session.currentHeapSize⟩ := by
    rw [Session.heapAt, ready.heap, ready.size]
  rw [here] at valid
  refine ⟨good.intact, ⟨?_, ready.index, ready.heap, ready.size, ?_, ?_, ?_, ?_⟩, ?_, ?_, ?_⟩
  · have owned := ready.owned
    exact ⟨owned.bound, owned.listed, owned.unused, owned.distinct, owned.apart, owned.valid⟩
  · exact Int.sub_nonneg_of_le room
  · change session.currentHeapFreeSize - roundUp request ≤ session.currentHeapSize
    omega
  · change (session.currentHeapSize - (session.currentHeapFreeSize - roundUp request)) % 8 = 0
    omega
  · intro block member
    rcases List.mem_cons.mp member with rfl | member
    · refine ⟨session.currentHeapIndex, Nat.le_refl _, ?_, fun _ => ?_⟩
      · change Range.Inside _ (session.heapAt session.currentHeapIndex)
        rw [here]
        unfold Range.Inside
        dsimp only
        omega
      · change session.currentHeap + (session.currentHeapSize - session.currentHeapFreeSize) +
          roundUp request ≤ session.currentHeap +
            (session.currentHeapSize - (session.currentHeapFreeSize - roundUp request))
        omega
    · obtain ⟨i, low, inside, stops⟩ := ready.filled block member
      refine ⟨i, low, inside, fun same => ?_⟩
      have stop := stops same
      change _ ≤ session.currentHeap +
        (session.currentHeapSize - (session.currentHeapFreeSize - roundUp request))
      omega
  · refine List.pairwise_cons.mpr ⟨fun block member => ?_, good.apart⟩
    obtain ⟨i, low, inside, stops⟩ := ready.filled block member
    rcases eq_or_ne i session.currentHeapIndex with same | other
    · exact .inr (stops same)
    · have heaps := ready.owned.heapAt_apart (Nat.lt_of_le_of_lt low ready.index) ready.index other
      have away := heaps.of_inside inside
      rw [here] at away
      unfold Range.Apart at away ⊢
      dsimp only at away ⊢
      omega
  · intro block member
    rcases List.mem_cons.mp member with rfl | member
    · exact requested
    · exact good.large block member
  · intro block member
    rcases List.mem_cons.mp member with rfl | member
    · change (session.currentHeap + (session.currentHeapSize - session.currentHeapFreeSize)) % 8 = 0
      have base := valid.2.1
      dsimp only at base
      omega
    · exact good.aligned block member

theorem alloc (good : w.Good) (run : w.alloc fuel request heap = .ok next) :
    next.Good ∧ w.Keeps next ∧ w.Fits (.alloc request heap) := by
  rw [World.alloc] at run
  split at run
  · split at run
    · obtain ⟨⟨session, live⟩, increased, run⟩ := ok_of_bind run
      cases run
      have increase := good.ready.increaseHeap increased
      refine ⟨good.take increase.ready increase.room, increase.kept,
        .inr (Nat.lt_of_not_le fun full => ?_)⟩
      exact good.ready.increaseHeap_not_ok full increased
    · rename_i enough
      have room := Int.not_lt.mp enough
      cases run
      exact ⟨good.take good.ready room, fun heap listed gone => absurd listed gone, .inl room⟩
  · cases run

theorem alloc_overrun (good : w.Good) (run : w.alloc fuel request heap = .error .overrun) :
    ¬ w.Fits (.alloc request heap) := by
  rw [World.alloc] at run
  split at run
  · split at run
    · rename_i little
      rcases error_of_bind run with stopped | ⟨⟨session, live⟩, _, run⟩
      · have full := good.ready.increaseHeap_overrun stopped
        rintro (room | another)
        · exact absurd room (Int.not_le.mpr little)
        · exact absurd another (Nat.not_lt_of_le full)
      · cases run
    · cases run
  · cases run

theorem restart (good : w.Good) : w.restart.Good ∧ w.Keeps w.restart := by
  have first := Nat.lt_of_le_of_lt (Nat.zero_le _) good.ready.index
  have ready : Ready (w.session.useHeap 0) w.live [] :=
    Ready.useHeap good.ready.owned first fun block member => absurd member List.not_mem_nil
  refine ⟨⟨good.intact, ready, .nil, ?_, ?_⟩, fun heap listed gone => absurd listed gone⟩
  · exact fun block member => absurd member List.not_mem_nil
  · exact fun block member => absurd member List.not_mem_nil

theorem exec_alloc :
    w.exec fuel (.alloc request heap) =
      if w.overrun then none else w.outcome (w.alloc fuel request heap) :=
  rfl

theorem outcome_error {stop : Stop} (shown : w.outcome (.error stop) = some next) :
    stop = .overrun ∧ next = { w with overrun := true } := by
  cases stop with
  | overrun => exact ⟨rfl, (Option.some.inj shown).symm⟩
  | _ => cases shown

theorem exec (good : w.Good) {call : Call} (run : w.exec fuel call = some next) :
    (next.Good ↔ w.Fits call) ∧ (next.overrun = false → next.Good) ∧ w.Keeps next := by
  have going : ¬ w.overrun = true := by
    rw [good.intact]
    exact Bool.false_ne_true
  cases call with
  | restart =>
      obtain rfl := Option.some.inj ((if_neg going).symm.trans run)
      obtain ⟨after, keeps⟩ := good.restart
      exact ⟨iff_of_true after trivial, fun _ => after, keeps⟩
  | alloc request heap =>
      rw [exec_alloc, if_neg going] at run
      cases result : w.alloc fuel request heap with
      | ok after =>
          rw [result] at run
          obtain rfl := Option.some.inj run
          obtain ⟨after, keeps, fits⟩ := good.alloc result
          exact ⟨iff_of_true after fits, fun _ => after, keeps⟩
      | error stop =>
          rw [result] at run
          obtain ⟨rfl, rfl⟩ := outcome_error run
          refine ⟨iff_of_false ?_ (good.alloc_overrun result), ?_,
            fun heap listed gone => absurd listed gone⟩
          · exact fun after => Bool.false_ne_true after.intact.symm
          · exact fun intact => absurd intact.symm Bool.false_ne_true

theorem init {initialSize : Int} (run : initSession initialSize heap = .ok w) : w.Good := by
  obtain ⟨⟨s, live⟩, allocated, run⟩ := ok_of_bind run
  obtain ⟨below, positive, inside, fresh, rfl, rfl⟩ := Session.allocateNewHeap_ok allocated
  obtain ⟨last, current, run⟩ := ok_of_bind run
  rw [Session.setCurrentHeap_eq (by exact below) inside] at current
  cases current
  cases run
  refine ⟨rfl, Ready.useHeap ⟨?_, ?_, ?_, ?_, ?_, ?_⟩ below nofun, .nil, nofun, nofun⟩
  · change 1 ≤ 15
    decide
  · intro i low
    obtain rfl := Nat.lt_one_iff.mp low
    rw [Owned.heapAt_setHeap]
    exact List.mem_cons_self
  · intro i high
    exact Function.update_of_ne (Nat.ne_of_gt high) ..
  · intro i j low high _
    exact (Nat.lt_one_iff.mp low).trans (Nat.lt_one_iff.mp high).symm
  · exact List.pairwise_singleton ..
  · intro other member
    obtain rfl := List.mem_singleton.mp member
    exact ⟨fresh.1, fresh.2.1, positive⟩

end Good

structure SoundRun (fuel : Nat) (past : List (World × Call)) (final : World) : Prop where
  states : ∀ step ∈ past, step.1.Sound
  final : final.Sound
  keeps : ∀ step ∈ past, ∀ next, step.1.exec fuel step.2 = some next → step.1.Keeps next

theorem good_of_intact {start final : World} {past : List (World × Call)} (good : start.Good)
    (trace : Trace (exec fuel) start past final) (intact : ∀ step ∈ past, step.1.overrun = false)
    (last : final.overrun = false) : (∀ step ∈ past, step.1.Good) ∧ final.Good := by
  induction trace with
  | start => exact ⟨nofun, good⟩
  | step trace taken ih =>
      rw [List.forall_mem_append, List.forall_mem_singleton] at intact ⊢
      obtain ⟨goods, state⟩ := ih intact.1 intact.2
      exact ⟨⟨goods, state⟩, (state.exec taken).2.1 last⟩

theorem soundRun_iff {start final : World} {past : List (World × Call)} {initialSize : Int}
    (init : initSession initialSize heap = .ok start)
    (trace : Trace (exec fuel) start past final) :
    SoundRun fuel past final ↔ ∀ step ∈ past, step.1.Fits step.2 := by
  have good : start.Good := Good.init init
  have throughout := trace.throughout_iff (fun _ _ _ good run => (Good.exec good run).1) good
  constructor
  · intro sound
    apply throughout.mp
    exact good_of_intact good trace (fun step member => (sound.states step member).intact)
      sound.final.intact
  · intro fits
    obtain ⟨goods, last⟩ := throughout.mpr fits
    exact ⟨fun step member => (goods step member).sound, last.sound,
      fun step member next run => ((goods step member).exec run).2.2⟩

def growing : List Call :=
  (List.range 15).map (fun i => .alloc (2 ^ (14 + i) - 16) (2 ^ (14 + i))) ++
    [.alloc 16 (2 ^ 29)]

instance (w : World) (call : Call) : Decidable (w.Fits call) :=
  match call with
  | .restart => isTrue trivial
  | .alloc _ _ => inferInstanceAs (Decidable (_ ∨ _))

def restarted : List Call :=
  growing.take 14 ++ [.restart, .alloc 100 0, .alloc 20000 0]

theorem soundRun_iff_restarted : ∃ start past final,
    initSession 16384 16384 = .ok start ∧ Trace (exec 2) start past final ∧
      past.map Prod.snd = restarted ∧ SoundRun 2 past final := by
  have init : ∃ start, initSession 16384 16384 = .ok start ∧
      (restarted.foldlM (fun (w : World) call => if w.Fits call then exec 2 w call else none)
        start).isSome = true :=
    ⟨_, rfl, by decide +kernel⟩
  obtain ⟨start, init, runs⟩ := init
  obtain ⟨final, run⟩ := Option.isSome_iff_exists.mp runs
  obtain ⟨past, calls, trace, fits⟩ := Trace.start.checked nofun run
  exact ⟨start, past, final, init, trace, calls, (soundRun_iff init trace).mpr fits⟩

theorem sixteenth_heap_overruns :
    ¬ ∀ initialSize heap fuel start past final, initSession initialSize heap = .ok start →
      Trace (exec fuel) start past final → SoundRun fuel past final := by
  intro claim
  have init : ∃ start, initSession 16384 16384 = .ok start ∧
      (growing.foldlM (exec 2) start).map World.overrun = some true :=
    ⟨_, rfl, by decide +kernel⟩
  obtain ⟨start, init, run⟩ := init
  obtain ⟨final, run, overrun⟩ := Option.map_eq_some_iff.mp run
  obtain ⟨past, _, trace⟩ := Trace.start.foldlM run
  have intact := (claim _ _ _ start past final init trace).final.intact
  rw [overrun] at intact
  exact Bool.false_ne_true intact.symm

end World

end LaTTe.Translator.Sma
