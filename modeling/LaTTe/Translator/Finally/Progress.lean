import LaTTe.Translator.Finally.Connected
import Mathlib.Data.Set.Card

namespace LaTTe.Translator.Finally

open LaTTe.Data (redirect whileLoop_run)

/-! One round of the loop over the finally blocks. -/

theorem modify_append {items : List FinallyBlockInfo} {index : Nat} {info : FinallyBlockInfo}
    (listed : items[index]? = some info) (new : List FinallyBlockInfo)
    (f : FinallyBlockInfo → FinallyBlockInfo) :
    (items ++ new).modify index f = items.set index (f info) ++ new := by
  induction items generalizing index with
  | nil => simp at listed
  | cons first rest ih =>
      cases index with
      | zero =>
          obtain rfl : first = info := by simpa using listed
          simp
      | succ index =>
          have later : rest[index]? = some info := by simpa using listed
          simpa using ih later

namespace Translation

variable (tr : Translation)

/-- The bytecode at `pc` became the instruction `n` in the main flow, for `u = 0`, or in
the copy that was made for the finally block `u - 1`. -/
def Translates (u pc n : Nat) : Prop :=
  ∃ table, tr.tables[u]? = some table ∧ table pc = some n

end Translation

/-- `next` has a copy of the subroutine of the finally block `index` in the place of its
`jsr`.  The copy registered the finally blocks `new`. -/
structure Advances (m : Method) (tr next : Translation) (index : Nat) (info : FinallyBlockInfo)
    (table : Nat → Option Nat) (last : Option Nat) (new : List FinallyBlockInfo) : Prop where
  tables : next.tables = tr.tables ++ [table]
  finallyBlocks : next.cfg.finallyBlocks =
    tr.cfg.finallyBlocks.set index { info with header := tr.cfg.size, lastInstr := last } ++ new
  sound : next.cfg.Sound
  size_lt : tr.cfg.size < next.cfg.size
  range : ∀ pc n, table pc = some n → tr.cfg.size < n ∧ n < next.cfg.size
  injective : ∀ pc pc' n, table pc = some n → table pc' = some n → pc = pc'
  instrs : ∀ p < tr.cfg.size, next.cfg.instr p = tr.cfg.instr p
  translated_iff : ∀ q, table q ≠ none ↔ m.Reaches info.headerPc q
  registered : Registered m table new
  last_sound : ∀ n, last = some n → ∃ r, table r = some n ∧ (m.code r).isRet = true
  last_iff : last ≠ none ↔
    Cfg.maxNumAfter tr.cfg.finallyBlocks.length = Cfg.maxNumAfter next.cfg.finallyBlocks.length ∧
    ∃ r, m.Reaches info.headerPc r ∧ (m.code r).isRet = true
  maxNum : next.cfg.maxNumOfFinallyBlocks = Cfg.maxNumAfter next.cfg.finallyBlocks.length
  old : ∀ p < tr.cfg.size, p ≠ info.gosub →
    next.cfg.links.succs p = redirect info.gosub tr.cfg.size (tr.cfg.links.succs p)
  jsrs : ∀ j n entry, table j = some n → (m.code j).subroutine = some entry →
    (next.cfg.instr n).typesAfter = (next.cfg.instr n).typesBefore ∧
    ∃ a, table ((m.code j).after j) = some a ∧ next.cfg.links.succs n = [a]
  rets : ∀ r n, table r = some n → (m.code r).isRet = true → next.cfg.links.succs n =
    if last = some n then redirect info.gosub tr.cfg.size (tr.cfg.links.succs info.gosub) else []

namespace Translation

variable {m : Method} {tr next : Translation} {fuel : Nat}

section

variable {info : FinallyBlockInfo} {ops : Operands} {index : Nat}

theorem finallyPrologue_sound (sound : tr.cfg.Sound) :
    (tr.finallyPrologue index ops).Sound := by
  obtain ⟨mirrored, bounded⟩ := sound.registerInstr ⟨.prologue, ops.saveContext, ops.saveContext⟩
  have headed : ((tr.cfg.registerInstr ⟨.prologue, ops.saveContext, ops.saveContext⟩).setHeader
      index tr.cfg.size).Sound := ⟨mirrored, bounded⟩
  exact headed.appendInstr (Nat.lt_succ_self _) _

theorem succs_finallyPrologue (sound : tr.cfg.Sound) {p : Nat} (below : p < tr.cfg.size) :
    (tr.finallyPrologue index ops).links.succs p = tr.cfg.links.succs p := by
  have registered :=
    sound.links_registerInstr ⟨.prologue, ops.saveContext, ops.saveContext⟩
  obtain ⟨mirrored, bounded⟩ := sound.registerInstr ⟨.prologue, ops.saveContext, ops.saveContext⟩
  have headed : ((tr.cfg.registerInstr ⟨.prologue, ops.saveContext, ops.saveContext⟩).setHeader
      index tr.cfg.size).Sound := ⟨mirrored, bounded⟩
  rw [finallyPrologue, headed.succs_appendInstr, if_neg (Nat.ne_of_lt below)]
  exact congrFun (congrArg (·.succs) registered) p

theorem instr_finallyPrologue {p : Nat} (below : p < tr.cfg.size) :
    (tr.finallyPrologue index ops).instr p = tr.cfg.instr p := by
  have first : p ≠ tr.cfg.size + 1 := Nat.ne_of_lt (Nat.lt_succ_of_lt below)
  exact (Function.update_of_ne first _ _).trans
    (Function.update_of_ne (Nat.ne_of_lt below) _ _)

theorem root_finallyPrologue : (tr.finallyPrologue index ops).instr (tr.cfg.size + 1) =
    ⟨.prologue, ops.saveContext, ops.saveContext⟩ :=
  Function.update_self (tr.cfg.size + 1) _ _

theorem finallyBlocks_finallyPrologue (listed : tr.cfg.finallyBlocks[index]? = some info) :
    (tr.finallyPrologue index ops).finallyBlocks =
      tr.cfg.finallyBlocks.set index { info with header := tr.cfg.size } := by
  have modified := modify_append listed [] fun info => { info with header := tr.cfg.size }
  rw [List.append_nil, List.append_nil] at modified
  exact modified

theorem recordLastInstr_frame (tr : Translation) (index : Nat) (t : Traversal) :
    (tr.recordLastInstr index t).links = t.cfg.links ∧
      (tr.recordLastInstr index t).size = t.cfg.size ∧
      (tr.recordLastInstr index t).instr = t.cfg.instr ∧
      (tr.recordLastInstr index t).maxNumOfFinallyBlocks = t.cfg.maxNumOfFinallyBlocks := by
  unfold recordLastInstr
  split <;> exact ⟨rfl, rfl, rfl, rfl⟩

theorem finallyBlocks_recordLastInstr {t : Traversal} {new : List FinallyBlockInfo}
    (listed : tr.cfg.finallyBlocks[index]? = some info) (unset : info.lastInstr = none)
    (blocks : t.cfg.finallyBlocks =
      tr.cfg.finallyBlocks.set index { info with header := tr.cfg.size } ++ new) :
    (tr.recordLastInstr index t).finallyBlocks =
      tr.cfg.finallyBlocks.set index
        { info with
          header := tr.cfg.size
          lastInstr :=
            if t.cfg.maxNumOfFinallyBlocks = tr.cfg.maxNumOfFinallyBlocks then
              t.lastRetTranslateInstr
            else none } ++ new := by
  have below : index < tr.cfg.finallyBlocks.length := by
    obtain ⟨below, _⟩ := List.getElem?_eq_some_iff.mp listed
    exact below
  unfold recordLastInstr
  split
  · have headed : (tr.cfg.finallyBlocks.set index { info with header := tr.cfg.size })[index]? =
        some { info with header := tr.cfg.size } := List.getElem?_set_self below
    rw [Cfg.setLastInstr, blocks, modify_append headed, List.set_set]
  · rw [blocks, ← unset]

end

/-- A round does what `Advances` says. -/
theorem advances (sound : tr.cfg.Sound)
    (maxNum : tr.cfg.maxNumOfFinallyBlocks = Cfg.maxNumAfter tr.cfg.finallyBlocks.length)
    {info : FinallyBlockInfo} {s : Nat}
    (listed : tr.cfg.finallyBlocks[tr.tables.length - 1]? = some info)
    (unset : info.lastInstr = none) (only : tr.cfg.links.succs info.gosub = [s])
    (run : tr.nextFinallyBlock m fuel = some next) :
    ∃ table last new, Advances m tr next (tr.tables.length - 1) info table last new := by
  simp only [nextFinallyBlock, translateFinallyBlock, listed, Option.bind_eq_bind,
    Option.bind_some, Option.bind_eq_some_iff, Option.some.injEq] at run
  obtain ⟨_, ⟨t, traversed, rfl⟩, rfl⟩ := run
  generalize tr.tables.length - 1 = index at *
  have gosub : info.gosub < tr.cfg.size :=
    (sound.bounded info.gosub s (by rw [only]; exact List.mem_singleton_self s)).1
  have headed := @finallyBlocks_finallyPrologue tr info
    { tr.ops with top := info.operandStackTop } index listed
  have copied := Traversal.traverse_copied (finallyPrologue_sound sound)
    (Nat.lt_succ_self (tr.cfg.size + 1))
    (by rw [root_finallyPrologue])
    (by rw [headed, List.length_set]; exact maxNum) traversed
  obtain ⟨new, blocks, registered⟩ := copied.registered
  rw [headed] at blocks
  have recorded := finallyBlocks_recordLastInstr listed unset blocks
  have base : tr.cfg.size + 2 ≤ t.cfg.size := copied.size_le
  have kept : ∀ p < tr.cfg.size, t.cfg.links.succs p = tr.cfg.links.succs p := by
    intro p below
    have twice : p < tr.cfg.size + 2 := Nat.lt_add_right 2 below
    rw [copied.frame p twice (Nat.ne_of_lt (Nat.lt_succ_of_lt below)),
      succs_finallyPrologue sound below]
  have above : ∀ pc n, t.translatedInstrs pc = some n → tr.cfg.size + 2 ≤ n ∧ n < t.cfg.size :=
    copied.range
  let last := if t.cfg.maxNumOfFinallyBlocks = tr.cfg.maxNumOfFinallyBlocks then
    t.lastRetTranslateInstr else none
  have last_sound : ∀ n, last = some n →
      ∃ r, t.translatedInstrs r = some n ∧ (m.code r).isRet = true := by
    intro n found
    simp only [last] at found
    split at found
    · exact copied.last_sound n found
    · contradiction
  have below : index < tr.cfg.finallyBlocks.length :=
    (List.getElem?_eq_some_iff.mp listed).1
  obtain ⟨links, size, instr, maxNum'⟩ := recordLastInstr_frame tr index t
  have sameLength : (tr.recordLastInstr index t).finallyBlocks.length =
      t.cfg.finallyBlocks.length := by
    rw [recorded, blocks, List.length_append, List.length_append, List.length_set,
      List.length_set]
  have room : t.cfg.maxNumOfFinallyBlocks = tr.cfg.maxNumOfFinallyBlocks ↔
      Cfg.maxNumAfter tr.cfg.finallyBlocks.length =
        Cfg.maxNumAfter (tr.recordLastInstr index t).finallyBlocks.length := by
    rw [sameLength, copied.maxNum, maxNum, eq_comm]
  have connected : Cfg.Connected (tr.recordLastInstr index t)
      { info with header := tr.cfg.size, lastInstr := last } s
      ((tr.recordLastInstr index t).connectFinallyBlock index) := by
    apply Cfg.connectFinallyBlock_connected
    · refine ⟨?_, fun p x member => ?_⟩
      · rw [links]
        exact copied.sound.mirrored
      · rw [links] at member
        rw [size]
        exact copied.sound.bounded p x member
    · rw [recorded, List.getElem?_append_left (by rw [List.length_set]; exact below),
        List.getElem?_set_self below]
    · rw [links, kept _ gosub, only]
    · rw [size]
      exact Nat.lt_of_succ_lt base
    · exact Nat.ne_of_gt gosub
    · intro l found
      obtain ⟨r, translated, isRet⟩ := last_sound l found
      obtain ⟨lower, upper⟩ := above r l translated
      refine ⟨by rw [size]; exact upper, ?_, ?_⟩
      · exact Nat.ne_of_gt (Nat.lt_of_lt_of_le gosub (Nat.le_of_add_right_le lower))
      · rw [links]
        exact copied.rets r l translated isRet
  have succs : ∀ p, p ≠ info.gosub →
      ((tr.recordLastInstr index t).connectFinallyBlock index).links.succs p =
        redirect info.gosub tr.cfg.size (if last = some p then [s] else t.cfg.links.succs p) := by
    intro p other
    rw [connected.succs p other, links]
  have other : ∀ pc n, t.translatedInstrs pc = some n → n ≠ info.gosub := by
    intro pc n translated
    have lower := (above pc n translated).1
    exact Nat.ne_of_gt (Nat.lt_of_lt_of_le gosub (Nat.le_of_add_right_le lower))
  have notLast : ∀ p, (∀ r, t.translatedInstrs r = some p → (m.code r).isRet = false) →
      last ≠ some p := by
    intro p plain found
    obtain ⟨r, translated, isRet⟩ := last_sound p found
    rw [plain r translated] at isRet
    contradiction
  refine ⟨t.translatedInstrs, last, new, rfl, ?_, connected.sound, ?_, ?_, copied.injective, ?_,
    copied.translated_iff, registered, last_sound, ?_, ?_, ?_, ?_, ?_⟩
  · rw [connected.finallyBlocks, recorded]
  · rw [connected.size, size]
    exact Nat.lt_of_succ_lt base
  · intro pc n translated
    rw [connected.size, size]
    obtain ⟨lower, upper⟩ := above pc n translated
    exact ⟨Nat.lt_of_succ_lt lower, upper⟩
  · intro p oldInstr
    rw [connected.instr, instr, copied.instrs p (Nat.lt_add_right 2 oldInstr),
      instr_finallyPrologue oldInstr]
  · rw [connected.finallyBlocks, ← room]
    simp only [last]
    split
    · rename_i same
      refine ⟨fun found => ⟨same, ?_⟩, fun ⟨_, r, reaches, isRet⟩ => ?_⟩
      · obtain ⟨n, found⟩ := Option.ne_none_iff_exists'.mp found
        obtain ⟨r, translated, isRet⟩ := copied.last_sound n found
        refine ⟨r, (copied.translated_iff r).mp ?_, isRet⟩
        rw [translated]
        exact Option.some_ne_none n
      · exact copied.last_complete r ((copied.translated_iff r).mpr reaches) isRet
    · rename_i moved
      exact ⟨fun absurd => (absurd rfl).elim, fun ⟨same, _⟩ => absurd same moved⟩
  · rw [connected.maxNum, connected.finallyBlocks, maxNum', sameLength]
    exact copied.maxNum
  · intro p oldInstr differs
    rw [succs p differs, if_neg, kept p oldInstr]
    refine notLast p fun r translated => ?_
    have lower := (above r p translated).1
    exact absurd oldInstr (Nat.not_lt.mpr (Nat.le_of_add_right_le lower))
  · intro j n entry translated calls
    obtain ⟨types, a, found, single⟩ := copied.jsrs j n entry translated calls
    refine ⟨by rw [connected.instr, instr]; exact types, a, found, ?_⟩
    have plain : last ≠ some n := by
      refine notLast n fun r translated' => ?_
      rw [copied.injective r j n translated' translated]
      exact Bytecode.not_isRet_of_subroutine calls
    rw [succs n (other j n translated), if_neg plain, single, redirect, List.map_singleton,
      if_neg (other _ a found)]
  · intro r n translated isRet
    rw [succs n (other r n translated), copied.rets r n translated isRet, only]
    split <;> rfl

/-! What is in place of the instructions of `jsr`s. -/

/-- The finally block that is already in the place of a `jsr`. -/
def Placed (tr : Translation) (info : FinallyBlockInfo) : Prop :=
  info ∈ tr.cfg.finallyBlocks.take (tr.tables.length - 1)

/-- The instruction that control meets at `instr`: the header of the finally block, when
`instr` was a `jsr` and the block was put there. -/
def entry (tr : Translation) (instr : Nat) : Nat :=
  match (tr.cfg.finallyBlocks.take (tr.tables.length - 1)).find? fun info =>
    info.gosub = instr with
  | some info => info.header
  | none => instr

theorem entry_cases (tr : Translation) (instr : Nat) :
    (∃ info, tr.Placed info ∧ info.gosub = instr ∧ tr.entry instr = info.header) ∨
      (∀ info, tr.Placed info → info.gosub ≠ instr) ∧ tr.entry instr = instr := by
  unfold entry
  cases found : (tr.cfg.finallyBlocks.take (tr.tables.length - 1)).find? fun info =>
      info.gosub = instr with
  | none =>
      refine Or.inr ⟨fun info placed same => ?_, rfl⟩
      exact List.find?_eq_none.mp found info placed (decide_eq_true same)
  | some info =>
      exact Or.inl ⟨info, List.mem_of_find?_eq_some found,
        by simpa using List.find?_some found, rfl⟩

/-! Counting finally blocks. -/

def start (m : Method) (tr : Translation) : Nat → Nat
  | 0 => m.startPc
  | k + 1 => ((tr.cfg.finallyBlocks[k]?).map (·.headerPc)).getD 0

end Translation

namespace Method

/-- The `jsr`s that are reached from a bytecode without going into subroutines. -/
def jsrs (m : Method) (start : Nat) : Set Nat :=
  { j | m.Reaches start j ∧ (m.code j).subroutine ≠ none }

end Method

theorem Registered.length_eq {m : Method} {table : Nat → Option Nat}
    {new : List FinallyBlockInfo} {start : Nat} (registered : Registered m table new)
    (translated_iff : ∀ q, table q ≠ none ↔ m.Reaches start q)
    (injective : ∀ pc pc' n, table pc = some n → table pc' = some n → pc = pc') :
    new.length = (m.jsrs start).ncard := by
  have bijective : Set.BijOn (fun j => (table j).getD 0) (m.jsrs start)
      ((new.map (·.gosub)).toFinset : Set Nat) := by
    refine ⟨fun j member => ?_, fun j member j' member' same => ?_, fun n member => ?_⟩
    · obtain ⟨reaches, calls⟩ := member
      obtain ⟨n, translated⟩ := Option.ne_none_iff_exists'.mp ((translated_iff j).mpr reaches)
      obtain ⟨target, calls⟩ := Option.ne_none_iff_exists'.mp calls
      obtain ⟨info, listed, rfl, _⟩ := registered.complete j n target translated calls
      simp only [translated, Option.getD_some, List.coe_toFinset, Set.mem_ofPred_eq]
      exact List.mem_map_of_mem listed
    · obtain ⟨n, translated⟩ := Option.ne_none_iff_exists'.mp ((translated_iff j).mpr member.1)
      obtain ⟨n', translated'⟩ :=
        Option.ne_none_iff_exists'.mp ((translated_iff j').mpr member'.1)
      simp only [translated, translated', Option.getD_some] at same
      subst same
      exact injective j j' n translated translated'
    · simp only [List.coe_toFinset, Set.mem_ofPred_eq] at member
      obtain ⟨info, listed, rfl⟩ := List.mem_map.mp member
      obtain ⟨_, j, translated, calls⟩ := registered.sound info listed
      refine ⟨j, ⟨(translated_iff j).mp ?_, ?_⟩, ?_⟩
      · rw [translated]
        exact Option.some_ne_none _
      · rw [calls]
        exact Option.some_ne_none _
      · simp only [translated, Option.getD_some]
  rw [bijective.ncard_eq, Set.ncard_coe_finset, List.toFinset_card_of_nodup registered.nodup,
    List.length_map]

namespace Translation

/-- The number of finally blocks that the main flow and the first copies register, `u`
traversals together. -/
noncomputable def numBefore (m : Method) (tr : Translation) (u : Nat) : Nat :=
  ((List.range u).map fun v => (m.jsrs (tr.start m v)).ncard).sum

/-- The copy for the finally block `k` can be made without moving the array. -/
def Room (m : Method) (tr : Translation) (k : Nat) : Prop :=
  Cfg.maxNumAfter (tr.numBefore m (k + 1)) =
    Cfg.maxNumAfter (tr.numBefore m (k + 1) + (m.jsrs (tr.start m (k + 1))).ncard)

theorem numBefore_succ (m : Method) (tr : Translation) (u : Nat) :
    tr.numBefore m (u + 1) = tr.numBefore m u + (m.jsrs (tr.start m u)).ncard := by
  rw [numBefore, List.range_succ, List.map_append, List.sum_append]
  simp [numBefore]

end Translation

theorem Translation.Translates.le {tr : Translation} {i u pc n : Nat}
    (translated : tr.Translates u pc n) (index : tr.tables.length = i + 1) : u ≤ i := by
  obtain ⟨table, found, _⟩ := translated
  have := (List.getElem?_eq_some_iff.mp found).1
  omega

structure Progress (m : Method) (tr : Translation) : Prop where
  sound : tr.cfg.Sound
  nonempty : 0 < tr.tables.length
  le : tr.tables.length ≤ tr.cfg.finallyBlocks.length + 1
  lt : ∀ u pc n, tr.Translates u pc n → n < tr.cfg.size
  injective : ∀ u u' pc pc' n, tr.Translates u pc n → tr.Translates u' pc' n → u = u' ∧ pc = pc'
  translated_iff : ∀ u < tr.tables.length, ∀ pc,
    (∃ n, tr.Translates u pc n) ↔ m.Reaches (tr.start m u) pc
  sites : ∀ k info, tr.cfg.finallyBlocks[k]? = some info → ∃ u ≤ k, ∃ j,
    tr.Translates u j info.gosub ∧ (m.code j).subroutine = some info.headerPc ∧
    (tr.cfg.instr info.gosub).typesAfter = (tr.cfg.instr info.gosub).typesBefore
  distinct : (tr.cfg.finallyBlocks.map (·.gosub)).Nodup
  headers : ∀ info, tr.Placed info → info.header < tr.cfg.size ∧
    ∀ u pc, ¬ tr.Translates u pc info.header
  headers_inj : ∀ info info', tr.Placed info → tr.Placed info' → info.header = info'.header →
    info = info'
  jsrs : ∀ k info u j, tr.tables.length ≤ k + 1 → tr.cfg.finallyBlocks[k]? = some info →
    tr.Translates u j info.gosub → info.lastInstr = none ∧
    ∃ a, tr.Translates u ((m.code j).after j) a ∧ tr.cfg.links.succs info.gosub = [tr.entry a]
  rets : ∀ k info r n, tr.cfg.finallyBlocks[k]? = some info → tr.Translates (k + 1) r n →
    (m.code r).isRet = true →
    (info.lastInstr ≠ some n → tr.cfg.links.succs n = []) ∧
    (info.lastInstr = some n → ∀ u j, tr.Translates u j info.gosub →
      ∃ a, tr.Translates u ((m.code j).after j) a ∧ tr.cfg.links.succs n = [tr.entry a])
  last_sound : ∀ k info n, k + 1 < tr.tables.length → tr.cfg.finallyBlocks[k]? = some info →
    info.lastInstr = some n → ∃ r, tr.Translates (k + 1) r n ∧ (m.code r).isRet = true
  last_iff : ∀ k info, k + 1 < tr.tables.length → tr.cfg.finallyBlocks[k]? = some info →
    (info.lastInstr ≠ none ↔
      tr.Room m k ∧ ∃ r, m.Reaches info.headerPc r ∧ (m.code r).isRet = true)
  maxNum : tr.cfg.maxNumOfFinallyBlocks = Cfg.maxNumAfter tr.cfg.finallyBlocks.length
  counted : tr.cfg.finallyBlocks.length = tr.numBefore m tr.tables.length

namespace Progress

variable {m : Method} {tr next : Translation} {fuel : Nat}

theorem index_unique (progress : Progress m tr) {k l : Nat} {info other : FinallyBlockInfo}
    (first : tr.cfg.finallyBlocks[k]? = some info)
    (second : tr.cfg.finallyBlocks[l]? = some other) (same : info.gosub = other.gosub) :
    k = l := by
  have below : k < (tr.cfg.finallyBlocks.map (·.gosub)).length := by
    rw [List.length_map]
    exact (List.getElem?_eq_some_iff.mp first).1
  refine (List.getElem?_inj below progress.distinct).mp ?_
  rw [List.getElem?_map, List.getElem?_map, first, second, Option.map_some, Option.map_some, same]

theorem placed_iff {info : FinallyBlockInfo} : tr.Placed info ↔
    ∃ k, k + 1 < tr.tables.length ∧ tr.cfg.finallyBlocks[k]? = some info := by
  rw [Translation.Placed, List.mem_iff_getElem?]
  constructor
  · rintro ⟨k, listed⟩
    rw [List.getElem?_take] at listed
    split at listed
    · rename_i below
      exact ⟨k, Nat.add_lt_of_lt_sub below, listed⟩
    · contradiction
  · rintro ⟨k, below, listed⟩
    refine ⟨k, ?_⟩
    rw [List.getElem?_take, if_pos (Nat.lt_sub_of_add_lt below), listed]

theorem gosub_lt (progress : Progress m tr) {k : Nat} {info : FinallyBlockInfo}
    (listed : tr.cfg.finallyBlocks[k]? = some info) : info.gosub < tr.cfg.size := by
  obtain ⟨u, _, j, translated, _⟩ := progress.sites k info listed
  exact progress.lt u j _ translated

theorem entry_gosub (progress : Progress m tr) {k : Nat} {info : FinallyBlockInfo}
    (pending : tr.tables.length ≤ k + 1) (listed : tr.cfg.finallyBlocks[k]? = some info) :
    tr.entry info.gosub = info.gosub := by
  rcases tr.entry_cases info.gosub with ⟨other, placed, same, _⟩ | ⟨_, kept⟩
  · obtain ⟨l, below, found⟩ := placed_iff.mp placed
    obtain rfl := progress.index_unique found listed same
    exact absurd below (Nat.not_lt.mpr pending)
  · exact kept

theorem entry_injective (progress : Progress m tr) {u v pc pc' a b : Nat}
    (first : tr.Translates u pc a) (second : tr.Translates v pc' b)
    (same : tr.entry a = tr.entry b) : a = b := by
  rcases tr.entry_cases a with ⟨info, placed, gosub, entry⟩ | ⟨_, entry⟩ <;>
    rcases tr.entry_cases b with ⟨info', placed', gosub', entry'⟩ | ⟨_, entry'⟩
  · have equal := progress.headers_inj info info' placed placed' (by rw [← entry, same, entry'])
    rw [← gosub, equal, gosub']
  · rw [← entry', ← same, entry] at second
    exact absurd second ((progress.headers info placed).2 v pc')
  · rw [← entry, same, entry'] at first
    exact absurd first ((progress.headers info' placed').2 u pc)
  · rw [← entry, same, entry']

section

variable {i : Nat} {info : FinallyBlockInfo} {table : Nat → Option Nat} {last : Option Nat}
  {new : List FinallyBlockInfo}

theorem translates_iff (index : tr.tables.length = i + 1)
    (step : Advances m tr next i info table last new) {u pc n : Nat} :
    next.Translates u pc n ↔ tr.Translates u pc n ∨ (u = i + 1 ∧ table pc = some n) := by
  unfold Translation.Translates
  rw [step.tables, ← index]
  constructor
  · rintro ⟨copy, found, translated⟩
    by_cases old : u < tr.tables.length
    · rw [List.getElem?_append_left old] at found
      exact Or.inl ⟨copy, found, translated⟩
    · have below := (List.getElem?_eq_some_iff.mp found).1
      rw [List.length_append, List.length_singleton] at below
      obtain rfl : u = tr.tables.length := by omega
      rw [List.getElem?_concat_length] at found
      obtain rfl := Option.some.inj found
      exact Or.inr ⟨rfl, translated⟩
  · rintro (⟨copy, found, translated⟩ | ⟨rfl, translated⟩)
    · refine ⟨copy, ?_, translated⟩
      rw [List.getElem?_append_left (List.getElem?_eq_some_iff.mp found).1, found]
    · exact ⟨table, List.getElem?_concat_length, translated⟩

theorem translates_of_lt (index : tr.tables.length = i + 1)
    (step : Advances m tr next i info table last new) {u pc n : Nat} (early : n < tr.cfg.size)
    (translated : next.Translates u pc n) : tr.Translates u pc n := by
  rcases (translates_iff index step).mp translated with old | ⟨_, own⟩
  · exact old
  · exact absurd (step.range pc n own).1 (Nat.lt_asymm early)

/-- The finally block that was put in its place. -/
theorem listed_iff (listed : tr.cfg.finallyBlocks[i]? = some info)
    (step : Advances m tr next i info table last new) {k : Nat} {other : FinallyBlockInfo} :
    next.cfg.finallyBlocks[k]? = some other ↔
      (k ≠ i ∧ tr.cfg.finallyBlocks[k]? = some other) ∨
      (k = i ∧ other = { info with header := tr.cfg.size, lastInstr := last }) ∨
      (tr.cfg.finallyBlocks.length ≤ k ∧
        new[k - tr.cfg.finallyBlocks.length]? = some other) := by
  have below := (List.getElem?_eq_some_iff.mp listed).1
  rw [step.finallyBlocks]
  by_cases old : k < tr.cfg.finallyBlocks.length
  · rw [List.getElem?_append_left (by rw [List.length_set]; exact old), List.getElem?_set]
    by_cases same : i = k
    · subst same
      rw [if_pos rfl, if_pos below, Option.some.injEq]
      constructor
      · rintro rfl
        exact Or.inr (Or.inl ⟨rfl, rfl⟩)
      · rintro (⟨differs, _⟩ | ⟨_, rfl⟩ | ⟨beyond, _⟩)
        · exact absurd rfl differs
        · rfl
        · exact absurd below (Nat.not_lt.mpr beyond)
    · rw [if_neg same]
      constructor
      · exact fun found => Or.inl ⟨Ne.symm same, found⟩
      · rintro (⟨_, found⟩ | ⟨equal, _⟩ | ⟨beyond, _⟩)
        · exact found
        · exact absurd equal.symm same
        · exact absurd old (Nat.not_lt.mpr beyond)
  · have beyond := Nat.le_of_not_lt old
    rw [List.getElem?_append_right (by rw [List.length_set]; exact beyond), List.length_set]
    constructor
    · exact fun found => Or.inr (Or.inr ⟨beyond, found⟩)
    · rintro (⟨_, found⟩ | ⟨rfl, _⟩ | ⟨_, found⟩)
      · exact absurd (List.getElem?_eq_some_iff.mp found).1 old
      · exact absurd below old
      · exact found

theorem start_eq (listed : tr.cfg.finallyBlocks[i]? = some info)
    (step : Advances m tr next i info table last new) {v : Nat} (early : v ≤ i + 1) :
    next.start m v = tr.start m v := by
  cases v with
  | zero => rfl
  | succ k =>
      have below := (List.getElem?_eq_some_iff.mp listed).1
      have inside : k < tr.cfg.finallyBlocks.length :=
        Nat.lt_of_le_of_lt (Nat.le_of_succ_le_succ early) below
      have found := List.getElem?_eq_getElem inside
      simp only [Translation.start]
      by_cases same : k = i
      · subst same
        rw [listed, (listed_iff listed step).mpr (Or.inr (Or.inl ⟨rfl, rfl⟩))]
        rfl
      · rw [found, (listed_iff listed step).mpr (Or.inl ⟨same, found⟩)]

theorem numBefore_eq (listed : tr.cfg.finallyBlocks[i]? = some info)
    (step : Advances m tr next i info table last new) {u : Nat} (early : u ≤ i + 2) :
    next.numBefore m u = tr.numBefore m u := by
  unfold Translation.numBefore
  congr 1
  refine List.map_congr_left fun v member => ?_
  have below := List.mem_range.mp member
  rw [start_eq listed step (by omega)]

theorem placed_next_iff (index : tr.tables.length = i + 1)
    (listed : tr.cfg.finallyBlocks[i]? = some info)
    (step : Advances m tr next i info table last new) {other : FinallyBlockInfo} :
    next.Placed other ↔ tr.Placed other ∨
      other = { info with header := tr.cfg.size, lastInstr := last } := by
  have below := (List.getElem?_eq_some_iff.mp listed).1
  have length : next.tables.length = i + 2 := by
    rw [step.tables, List.length_append, index, List.length_singleton]
  rw [placed_iff, placed_iff, length, index]
  constructor
  · rintro ⟨k, early, found⟩
    rcases (listed_iff listed step).mp found with ⟨differs, found⟩ | ⟨_, equal⟩ | ⟨beyond, _⟩
    · exact Or.inl ⟨k, by omega, found⟩
    · exact Or.inr equal
    · omega
  · rintro (⟨k, early, found⟩ | rfl)
    · exact ⟨k, by omega, (listed_iff listed step).mpr (Or.inl ⟨by omega, found⟩)⟩
    · exact ⟨i, by omega, (listed_iff listed step).mpr (Or.inr (Or.inl ⟨rfl, rfl⟩))⟩

section

variable (progress : Progress m tr) (index : tr.tables.length = i + 1)
  (listed : tr.cfg.finallyBlocks[i]? = some info) (step : Advances m tr next i info table last new)

include progress index listed step

theorem redirect_entry {u pc a : Nat} (known : tr.Translates u pc a) :
    redirect info.gosub tr.cfg.size [tr.entry a] = [next.entry a] := by
  have kept := progress.entry_gosub (Nat.le_of_eq index) listed
  have placed : next.Placed { info with header := tr.cfg.size, lastInstr := last } :=
    (placed_next_iff index listed step).mpr (Or.inr rfl)
  rw [redirect, List.map_singleton]
  congr 1
  rcases next.entry_cases a with ⟨other, placedOther, rfl, entry⟩ | ⟨absent, entry⟩
  · rw [entry]
    rcases (placed_next_iff index listed step).mp placedOther with old | rfl
    · have header : tr.entry other.gosub = other.header := by
        rcases tr.entry_cases other.gosub with ⟨same, placedSame, gosub, found⟩ | ⟨absent, _⟩
        · obtain ⟨k, _, first⟩ := placed_iff.mp placedSame
          obtain ⟨l, _, second⟩ := placed_iff.mp old
          obtain rfl := progress.index_unique first second gosub
          rw [found, Option.some.inj (first.symm.trans second)]
        · exact absurd rfl (absent other old)
      rw [header, if_neg]
      intro same
      obtain ⟨v, _, j, translated, _⟩ := progress.sites i info listed
      rw [← same] at translated
      exact (progress.headers other old).2 v j translated
    · rw [kept, if_pos rfl]
  · have differs := absent _ placed
    have same : tr.entry a = a := by
      rcases tr.entry_cases a with ⟨other, placedOther, gosub, _⟩ | ⟨_, found⟩
      · exact absurd gosub (absent other
          ((placed_next_iff index listed step).mpr (Or.inl placedOther)))
      · exact found
    rw [same, entry, if_neg (Ne.symm differs)]

theorem entry_of_lt {a : Nat} (above : tr.cfg.size < a) :
    next.entry a = a := by
  rcases next.entry_cases a with ⟨other, placed, rfl, _⟩ | ⟨_, kept⟩
  · have old : ∃ (k : Nat) (info' : FinallyBlockInfo), tr.cfg.finallyBlocks[k]? = some info' ∧ info'.gosub = other.gosub := by
      rcases (placed_next_iff index listed step).mp placed with before | rfl
      · obtain ⟨k, _, found⟩ := placed_iff.mp before
        exact ⟨k, other, found, rfl⟩
      · exact ⟨i, info, listed, rfl⟩
    obtain ⟨k, info', found, gosub⟩ := old
    obtain ⟨v, _, j, translated, _⟩ := progress.sites k info' found
    rw [gosub] at translated
    exact absurd (progress.lt v j _ translated) (Nat.lt_asymm above)
  · exact kept

omit index in
theorem distinct_of_advance : (next.cfg.finallyBlocks.map (·.gosub)).Nodup := by
  have same : (tr.cfg.finallyBlocks.set i
      { info with header := tr.cfg.size, lastInstr := last }).map (·.gosub) =
      tr.cfg.finallyBlocks.map (·.gosub) := by
    obtain ⟨_, own⟩ := List.getElem?_eq_some_iff.mp listed
    have inside : i < (tr.cfg.finallyBlocks.map (·.gosub)).length := by
      rw [List.length_map]
      exact (List.getElem?_eq_some_iff.mp listed).1
    have gosubAt : info.gosub = (tr.cfg.finallyBlocks.map (·.gosub))[i] := by
      rw [List.getElem_map, own]
    rw [List.map_set, gosubAt, List.set_getElem_self]
  rw [step.finallyBlocks, List.map_append, same, List.nodup_append]
  refine ⟨progress.distinct, step.registered.nodup, ?_⟩
  rintro x old _ added rfl
  obtain ⟨other, member, rfl⟩ := List.mem_map.mp old
  obtain ⟨k, found⟩ := List.mem_iff_getElem?.mp member
  obtain ⟨other', member', equal⟩ := List.mem_map.mp added
  obtain ⟨_, j, translated, _⟩ := step.registered.sound other' member'
  rw [equal] at translated
  exact absurd (step.range j _ translated).1 (Nat.lt_asymm (progress.gosub_lt found))

theorem jsrs_of_advance {k u j : Nat} {other : FinallyBlockInfo} (pending : i + 2 ≤ k + 1)
    (found : next.cfg.finallyBlocks[k]? = some other)
    (translated : next.Translates u j other.gosub) :
    other.lastInstr = none ∧ ∃ a, next.Translates u ((m.code j).after j) a ∧
      next.cfg.links.succs other.gosub = [next.entry a] := by
  rcases (listed_iff listed step).mp found with ⟨differs, found⟩ | ⟨rfl, rfl⟩ | ⟨beyond, found⟩
  · have early := progress.gosub_lt found
    obtain ⟨unset, a, next, single⟩ := progress.jsrs k other u j (by omega) found
      (translates_of_lt index step early translated)
    refine ⟨unset, a, (translates_iff index step).mpr (Or.inl next), ?_⟩
    rw [step.old _ early, single, redirect_entry progress index listed step next]
    exact fun same => differs (progress.index_unique found listed same)
  · omega
  · obtain ⟨unset, j', translated', calls⟩ :=
      step.registered.sound other (List.mem_of_getElem? found)
    obtain ⟨_, a, next, single⟩ := step.jsrs j' _ _ translated' calls
    rcases (translates_iff index step).mp translated with old | ⟨rfl, own⟩
    · exact absurd (step.range j' _ translated').1 (Nat.lt_asymm (progress.lt u j _ old))
    · obtain rfl := step.injective j j' _ own translated'
      refine ⟨unset, a, (translates_iff index step).mpr (Or.inr ⟨rfl, next⟩), ?_⟩
      rw [single, entry_of_lt progress index listed step (step.range _ a next).1]

theorem rets_of_advance {k r n : Nat} {other : FinallyBlockInfo}
    (found : next.cfg.finallyBlocks[k]? = some other) (translated : next.Translates (k + 1) r n)
    (isRet : (m.code r).isRet = true) :
    (other.lastInstr ≠ some n → next.cfg.links.succs n = []) ∧
      (other.lastInstr = some n → ∀ u j, next.Translates u j other.gosub →
        ∃ a, next.Translates u ((m.code j).after j) a ∧
          next.cfg.links.succs n = [next.entry a]) := by
  have below := (List.getElem?_eq_some_iff.mp listed).1
  rcases (translates_iff index step).mp translated with old | ⟨equal, own⟩
  · have early := progress.lt (k + 1) r n old
    have before : k < i := old.le index
    have found' : tr.cfg.finallyBlocks[k]? = some other := by
      rcases (listed_iff listed step).mp found with ⟨_, found⟩ | ⟨equal, _⟩ | ⟨beyond, _⟩
      · exact found
      · omega
      · omega
    obtain ⟨unlinked, linked⟩ := progress.rets k other r n found' old isRet
    have differs : n ≠ info.gosub := by
      rintro rfl
      obtain ⟨_, _, _, siteOf, siteCalls, _⟩ := progress.sites i info listed
      obtain ⟨_, rfl⟩ := progress.injective _ _ _ _ _ old siteOf
      rw [Bytecode.not_isRet_of_subroutine siteCalls] at isRet
      contradiction
    rw [step.old n early differs]
    refine ⟨fun notLast => by rw [unlinked notLast]; rfl, fun isLast u j siteOf' => ?_⟩
    obtain ⟨a, next, single⟩ := linked isLast u j
      (translates_of_lt index step (progress.gosub_lt found') siteOf')
    refine ⟨a, (translates_iff index step).mpr (Or.inl next), ?_⟩
    rw [single, redirect_entry progress index listed step next]
  · obtain rfl : k = i := Nat.succ.inj equal
    have other_eq : other = { info with header := tr.cfg.size, lastInstr := last } := by
      rcases (listed_iff listed step).mp found with ⟨differs, _⟩ | ⟨_, same⟩ | ⟨beyond, _⟩
      · exact absurd rfl differs
      · exact same
      · omega
    subst other_eq
    have succs := step.rets r n own isRet
    refine ⟨fun notLast => by rw [succs, if_neg notLast], fun isLast u j siteOf' => ?_⟩
    obtain ⟨_, a, next, single⟩ := progress.jsrs k info u j (Nat.le_of_eq index) listed
      (translates_of_lt index step (progress.gosub_lt listed) siteOf')
    refine ⟨a, (translates_iff index step).mpr (Or.inl next), ?_⟩
    rw [succs, if_pos isLast, single, redirect_entry progress index listed step next]

theorem advance : Progress m next := by
  have below := (List.getElem?_eq_some_iff.mp listed).1
  have tables : next.tables.length = i + 2 := by
    rw [step.tables, List.length_append, index, List.length_singleton]
  have blocks : next.cfg.finallyBlocks.length = tr.cfg.finallyBlocks.length + new.length := by
    rw [step.finallyBlocks, List.length_append, List.length_set]
  obtain ⟨site, siteLe, jsr, siteOf, siteCalls, siteTypes⟩ := progress.sites i info listed
  have fromOld : ∀ {u pc n}, tr.Translates u pc n → next.Translates u pc n :=
    fun known => (translates_iff index step).mpr (Or.inl known)
  have fromNew : ∀ {pc n}, table pc = some n → next.Translates (i + 1) pc n :=
    fun known => (translates_iff index step).mpr (Or.inr ⟨rfl, known⟩)
  have ownCopy : ∀ {pc n}, next.Translates (i + 1) pc n → table pc = some n := by
    intro pc n translated
    rcases (translates_iff index step).mp translated with old | ⟨_, own⟩
    · exact absurd (old.le index) (Nat.not_succ_le_self i)
    · exact own
  have count := step.registered.length_eq step.translated_iff step.injective
  have startHere : tr.start m (i + 1) = info.headerPc := by
    simp only [Translation.start, listed, Option.map_some, Option.getD_some]
  constructor
  case sound => exact step.sound
  case nonempty => omega
  case le =>
    rw [tables, blocks]
    omega
  case lt =>
    intro u pc n translated
    rcases (translates_iff index step).mp translated with old | ⟨_, own⟩
    · exact Nat.lt_trans (progress.lt u pc n old) step.size_lt
    · exact (step.range pc n own).2
  case injective =>
    intro u u' pc pc' n first second
    rcases (translates_iff index step).mp first with old | ⟨rfl, own⟩
    · exact progress.injective u u' pc pc' n old (translates_of_lt index step (progress.lt u pc n old) second)
    · rcases (translates_iff index step).mp second with old | ⟨rfl, own'⟩
      · exact absurd (step.range pc n own).1 (Nat.lt_asymm (progress.lt u' pc' n old))
      · exact ⟨rfl, step.injective pc pc' n own own'⟩
  case translated_iff =>
    intro u early pc
    rw [tables] at early
    rw [start_eq listed step (Nat.le_of_lt_succ early)]
    by_cases own : u = i + 1
    · subst own
      rw [startHere, ← step.translated_iff, Option.ne_none_iff_exists']
      exact ⟨fun ⟨n, translated⟩ => ⟨n, ownCopy translated⟩,
        fun ⟨n, translated⟩ => ⟨n, fromNew translated⟩⟩
    · rw [← progress.translated_iff u (by omega) pc]
      constructor
      · rintro ⟨n, translated⟩
        rcases (translates_iff index step).mp translated with old | ⟨rfl, _⟩
        · exact ⟨n, old⟩
        · exact absurd rfl own
      · exact fun ⟨n, translated⟩ => ⟨n, fromOld translated⟩
  case sites =>
    intro k other found
    rcases (listed_iff listed step).mp found with ⟨_, found⟩ | ⟨rfl, rfl⟩ | ⟨beyond, found⟩
    · obtain ⟨u, early, j, translated, calls, types⟩ := progress.sites k other found
      refine ⟨u, early, j, fromOld translated, calls, ?_⟩
      rw [step.instrs _ (progress.gosub_lt found)]
      exact types
    · refine ⟨site, siteLe, jsr, fromOld siteOf, siteCalls, ?_⟩
      rw [step.instrs _ (progress.gosub_lt listed)]
      exact siteTypes
    · obtain ⟨_, j, translated, calls⟩ :=
        step.registered.sound other (List.mem_of_getElem? found)
      refine ⟨i + 1, by omega, j, fromNew translated, calls, ?_⟩
      exact (step.jsrs j _ _ translated calls).1
  case distinct => exact distinct_of_advance progress listed step
  case headers =>
    intro other placed
    rcases (placed_next_iff index listed step).mp placed with old | rfl
    · obtain ⟨header, unused⟩ := progress.headers other old
      exact ⟨Nat.lt_trans header step.size_lt,
        fun u pc translated => unused u pc (translates_of_lt index step header translated)⟩
    · refine ⟨step.size_lt, fun u pc translated => ?_⟩
      rcases (translates_iff index step).mp translated with old | ⟨_, own⟩
      · exact Nat.lt_irrefl _ (progress.lt u pc _ old)
      · exact Nat.lt_irrefl _ (step.range pc _ own).1
  case headers_inj =>
    intro other other' placed placed' same
    rcases (placed_next_iff index listed step).mp placed with old | rfl <;>
      rcases (placed_next_iff index listed step).mp placed' with old' | rfl
    · exact progress.headers_inj other other' old old' same
    · exact absurd same (Nat.ne_of_lt (progress.headers other old).1)
    · exact absurd same.symm (Nat.ne_of_lt (progress.headers other' old').1)
    · rfl
  case jsrs =>
    intro k other u j pending found translated
    rw [tables] at pending
    exact jsrs_of_advance progress index listed step pending found translated
  case rets =>
    exact fun k other r n found translated isRet =>
      rets_of_advance progress index listed step found translated isRet
  case last_sound =>
    intro k other n early found isLast
    rw [tables] at early
    rcases (listed_iff listed step).mp found with ⟨differs, found⟩ | ⟨rfl, rfl⟩ | ⟨beyond, _⟩
    · obtain ⟨r, translated, isRet⟩ := progress.last_sound k other n (by omega) found isLast
      exact ⟨r, fromOld translated, isRet⟩
    · obtain ⟨r, translated, isRet⟩ := step.last_sound n isLast
      exact ⟨r, fromNew translated, isRet⟩
    · omega
  case last_iff =>
    intro k other early found
    rw [tables] at early
    have room : next.Room m k ↔ tr.Room m k := by
      unfold Translation.Room
      rw [numBefore_eq listed step (by omega), start_eq listed step (by omega)]
    rw [room]
    rcases (listed_iff listed step).mp found with ⟨differs, found⟩ | ⟨rfl, rfl⟩ | ⟨beyond, _⟩
    · exact progress.last_iff k other (by omega) found
    · have moved := step.last_iff
      rw [blocks, progress.counted, index, count, ← startHere] at moved
      rw [← startHere]
      exact moved
    · omega
  case maxNum => exact step.maxNum
  case counted =>
    rw [blocks, tables, numBefore_eq listed step (Nat.le_refl _), Translation.numBefore_succ,
      progress.counted, index, count, startHere]

end

end

theorem nextFinallyBlock (progress : Progress m tr) (unfinished : tr.unfinished = true)
    (run : tr.nextFinallyBlock m fuel = some next) : Progress m next := by
  have more : tr.tables.length ≤ tr.cfg.finallyBlocks.length := of_decide_eq_true unfinished
  have nonempty := progress.nonempty
  obtain ⟨i, index⟩ : ∃ i, tr.tables.length = i + 1 := ⟨tr.tables.length - 1, by omega⟩
  have below : i < tr.cfg.finallyBlocks.length := by omega
  obtain ⟨info, listed⟩ : ∃ info, tr.cfg.finallyBlocks[i]? = some info :=
    ⟨_, List.getElem?_eq_getElem below⟩
  obtain ⟨u, _, j, translated, _⟩ := progress.sites i info listed
  obtain ⟨unset, a, _, only⟩ := progress.jsrs i info u j (Nat.le_of_eq index) listed translated
  have here : tr.tables.length - 1 = i := by omega
  obtain ⟨table, last, new, step⟩ := Translation.advances progress.sound progress.maxNum
    (by rw [here]; exact listed) unset only run
  rw [here] at step
  exact progress.advance index listed step

theorem mainFlow {ops : Operands} (run : translateMainFlow m ops fuel = some tr) :
    Progress m tr := by
  simp only [translateMainFlow, Option.bind_eq_bind, Option.bind_eq_some_iff,
    Option.some.injEq] at run
  obtain ⟨t, traversed, rfl⟩ := run
  have empty : emptyCfg.Sound := ⟨fun _ _ => rfl, nofun⟩
  have copied := Traversal.traverse_copied (empty.registerInstr _) (Nat.lt_succ_self 0)
    rfl rfl traversed
  obtain ⟨new, blocks, registered⟩ := copied.registered
  have blocks : t.cfg.finallyBlocks = new := blocks
  have translates : ∀ {u pc n},
      Translation.Translates ⟨t.cfg, t.ops, [t.translatedInstrs]⟩ u pc n ↔
        u = 0 ∧ t.translatedInstrs pc = some n := by
    intro u pc n
    constructor
    · rintro ⟨table, found, translated⟩
      have below := (List.getElem?_eq_some_iff.mp found).1
      obtain rfl : u = 0 := Nat.lt_one_iff.mp below
      obtain rfl : t.translatedInstrs = table := Option.some.inj found
      exact ⟨rfl, translated⟩
    · rintro ⟨rfl, translated⟩
      exact ⟨_, rfl, translated⟩
  have kept : ∀ a, Translation.entry ⟨t.cfg, t.ops, [t.translatedInstrs]⟩ a = a := fun _ => rfl
  have unplaced : ∀ info, ¬ Translation.Placed ⟨t.cfg, t.ops, [t.translatedInstrs]⟩ info :=
    fun _ => List.not_mem_nil
  have listed : ∀ {k : Nat} {info : FinallyBlockInfo}, t.cfg.finallyBlocks[k]? = some info →
      info.lastInstr = none ∧ ∃ j, t.translatedInstrs j = some info.gosub ∧
        (m.code j).subroutine = some info.headerPc := by
    intro k info found
    rw [blocks] at found
    exact registered.sound info (List.mem_of_getElem? found)
  constructor
  case sound => exact copied.sound
  case nonempty => exact Nat.one_pos
  case le => exact Nat.succ_le_succ (Nat.zero_le _)
  case lt => exact fun u pc n known => (copied.range pc n (translates.mp known).2).2
  case injective =>
    intro u u' pc pc' n first second
    obtain ⟨main, known⟩ := translates.mp first
    obtain ⟨main', known'⟩ := translates.mp second
    exact ⟨main.trans main'.symm, copied.injective pc pc' n known known'⟩
  case translated_iff =>
    intro u below pc
    obtain rfl : u = 0 := Nat.lt_one_iff.mp below
    refine Iff.trans ?_ (copied.translated_iff pc)
    rw [Option.ne_none_iff_exists']
    exact ⟨fun ⟨n, known⟩ => ⟨n, (translates.mp known).2⟩,
      fun ⟨n, known⟩ => ⟨n, translates.mpr ⟨rfl, known⟩⟩⟩
  case sites =>
    intro k info found
    obtain ⟨_, j, translated, calls⟩ := listed found
    exact ⟨0, Nat.zero_le k, j, translates.mpr ⟨rfl, translated⟩, calls,
      (copied.jsrs j _ _ translated calls).1⟩
  case distinct =>
    rw [show Cfg.finallyBlocks _ = new from blocks]
    exact registered.nodup
  case headers => exact fun info placed => absurd placed (unplaced info)
  case headers_inj => exact fun info _ placed => absurd placed (unplaced info)
  case jsrs =>
    intro k info u j _ found translated
    obtain ⟨main, known⟩ := translates.mp translated
    obtain ⟨unset, j', known', calls⟩ := listed found
    obtain rfl := copied.injective j j' _ known known'
    obtain ⟨_, a, next, single⟩ := copied.jsrs j _ _ known calls
    exact ⟨unset, a, translates.mpr ⟨main, next⟩, by rw [kept]; exact single⟩
  case rets =>
    intro k info r n found translated isRet
    exact absurd (translates.mp translated).1 (Nat.succ_ne_zero k)
  case last_sound =>
    intro k info n early
    exact absurd (Nat.lt_of_succ_lt_succ early) (Nat.not_lt_zero k)
  case last_iff =>
    intro k info early
    exact absurd (Nat.lt_of_succ_lt_succ early) (Nat.not_lt_zero k)
  case maxNum => exact copied.maxNum
  case counted =>
    have count := registered.length_eq copied.translated_iff copied.injective
    have first := Translation.numBefore_succ m ⟨t.cfg, t.ops, [t.translatedInstrs]⟩ 0
    rw [show Cfg.finallyBlocks _ = new from blocks, count]
    refine Eq.trans ?_ first.symm
    exact (Nat.zero_add _).symm

theorem translateOneMethod {ops : Operands} (run : translateOneMethod m ops fuel = some tr) :
    Progress m tr ∧ tr.tables.length = tr.cfg.finallyBlocks.length + 1 := by
  simp only [Finally.translateOneMethod, Option.bind_eq_bind, Option.bind_eq_some_iff] at run
  obtain ⟨main, first, run⟩ := run
  obtain ⟨progress, finished⟩ := whileLoop_run (Progress m)
    (fun _ _ holds unfinished round => holds.nextFinallyBlock unfinished round)
    (mainFlow first) run
  have all : ¬ tr.tables.length ≤ tr.cfg.finallyBlocks.length := of_decide_eq_false finished
  exact ⟨progress, Nat.le_antisymm progress.le (Nat.lt_of_not_le all)⟩

end Progress

end LaTTe.Translator.Finally
