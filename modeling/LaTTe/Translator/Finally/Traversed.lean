import LaTTe.Data.Coverage
import LaTTe.Translator.Finally.Translate

namespace LaTTe.Translator.Finally

open LaTTe.Data (Covers LinkGraph whileLoop_run)

/-! What one traversal of bytecodes makes of them. -/

namespace Method

variable (m : Method)

/-- The bytecode at `q` comes after the one at `p` in the flow of its method, in which a
`jsr` is stepped over. -/
def Flows (p q : Nat) : Prop :=
  q ∈ (m.code p).npcs p

def Reaches : Nat → Nat → Prop :=
  Relation.ReflTransGen m.Flows

end Method

theorem Bytecode.npcs_of_isRet {code : Bytecode} (ret : code.isRet = true) (pc : Nat) :
    code.npcs pc = [] := by
  cases code with
  | ret index => rfl
  | _ => contradiction

theorem Bytecode.npcs_of_subroutine {code : Bytecode} {entry : Nat}
    (calls : code.subroutine = some entry) (pc : Nat) : code.npcs pc = [code.after pc] := by
  cases code with
  | jsr addr => rfl
  | jsrW addr => rfl
  | _ => contradiction

theorem Bytecode.not_isRet_of_subroutine {code : Bytecode} {entry : Nat}
    (calls : code.subroutine = some entry) : code.isRet = false := by
  cases code with
  | ret index => contradiction
  | _ => rfl

namespace Cfg

structure Sound (cfg : Cfg) : Prop where
  mirrored : cfg.links.Mirrored
  bounded : ∀ p s, s ∈ cfg.links.succs p → p < cfg.size ∧ s < cfg.size

variable {cfg : Cfg}

theorem Sound.succs_of_le (sound : cfg.Sound) {p : Nat} (beyond : cfg.size ≤ p) :
    cfg.links.succs p = [] := by
  refine List.eq_nil_iff_forall_not_mem.mpr fun s member => ?_
  exact Nat.not_lt.mpr beyond (sound.bounded p s member).1

theorem Sound.preds_of_le (sound : cfg.Sound) {s : Nat} (beyond : cfg.size ≤ s) :
    cfg.links.preds s = [] := by
  refine List.eq_nil_iff_forall_not_mem.mpr fun p member => ?_
  exact Nat.not_lt.mpr beyond (sound.bounded p s (sound.mirrored.mem_iff.mpr member)).2

theorem Sound.links_registerInstr (sound : cfg.Sound) (instr : Instr) :
    (cfg.registerInstr instr).links = cfg.links := by
  have succs := Function.update_eq_self cfg.size cfg.links.succs
  have preds := Function.update_eq_self cfg.size cfg.links.preds
  rw [sound.succs_of_le (Nat.le_refl _)] at succs
  rw [sound.preds_of_le (Nat.le_refl _)] at preds
  exact LinkGraph.ext succs preds

theorem Sound.registerInstr (sound : cfg.Sound) (instr : Instr) :
    (cfg.registerInstr instr).Sound := by
  have links := sound.links_registerInstr instr
  constructor
  · rw [links]
    exact sound.mirrored
  · intro p s member
    rw [links] at member
    obtain ⟨pred, succ⟩ := sound.bounded p s member
    exact ⟨Nat.lt_succ_of_lt pred, Nat.lt_succ_of_lt succ⟩

theorem succs_connectInstruction (cfg : Cfg) (p s q : Nat) :
    (cfg.connectInstruction p s).links.succs q =
      if q = p then cfg.links.succs p ++ [s] else cfg.links.succs q :=
  cfg.links.succs_connect p s q

theorem Sound.connectInstruction (sound : cfg.Sound) {p s : Nat} (pred : p < cfg.size)
    (succ : s < cfg.size) : (cfg.connectInstruction p s).Sound := by
  refine ⟨sound.mirrored.connect p s, fun q r member => ?_⟩
  rw [succs_connectInstruction] at member
  split at member
  · rename_i same
    subst same
    rcases List.mem_append.mp member with old | new
    · exact sound.bounded q r old
    · obtain rfl := List.mem_singleton.mp new
      exact ⟨pred, succ⟩
  · exact sound.bounded q r member

theorem succs_disconnectInstruction (cfg : Cfg) (p s q : Nat) :
    (cfg.disconnectInstruction p s).links.succs q =
      if q = p then (cfg.links.succs p).erase s else cfg.links.succs q :=
  cfg.links.succs_disconnect p s q

theorem Sound.disconnectInstruction (sound : cfg.Sound) (p s : Nat) :
    (cfg.disconnectInstruction p s).Sound := by
  refine ⟨sound.mirrored.disconnect p s, fun q r member => ?_⟩
  rw [succs_disconnectInstruction] at member
  split at member
  · rename_i same
    subst same
    exact sound.bounded q r (List.mem_of_mem_erase member)
  · exact sound.bounded q r member

theorem Sound.appendInstr (sound : cfg.Sound) {p : Nat} (pred : p < cfg.size) (instr : Instr) :
    (cfg.appendInstr p instr).Sound :=
  (sound.registerInstr instr).connectInstruction (Nat.lt_succ_of_lt pred) (Nat.lt_succ_self _)

theorem Sound.succs_appendInstr (sound : cfg.Sound) (p q : Nat) (instr : Instr) :
    (cfg.appendInstr p instr).links.succs q =
      if q = p then cfg.links.succs p ++ [cfg.size] else cfg.links.succs q := by
  rw [Cfg.appendInstr, succs_connectInstruction, sound.links_registerInstr]

def maxNumAfter : Nat → Nat
  | 0 => 0
  | num + 1 =>
      if num = 0 then 5
      else if num = maxNumAfter num then maxNumAfter num * 2
      else maxNumAfter num

end Cfg

/-! The finally blocks that a traversal registers. -/

structure Registered (m : Method) (table : Nat → Option Nat) (new : List FinallyBlockInfo) :
    Prop where
  sound : ∀ info ∈ new, info.lastInstr = none ∧
    ∃ j, table j = some info.gosub ∧ (m.code j).subroutine = some info.headerPc
  complete : ∀ j n entry, table j = some n → (m.code j).subroutine = some entry →
    ∃ info ∈ new, info.gosub = n ∧ info.headerPc = entry
  nodup : (new.map (·.gosub)).Nodup

section

variable {m : Method} {table : Nat → Option Nat} {new : List FinallyBlockInfo} {q n : Nat}

theorem Registered.plain (registered : Registered m table new) (fresh : table q = none)
    (plain : (m.code q).subroutine = none) :
    Registered m (Function.update table q (some n)) new := by
  refine ⟨fun info member => ?_, fun j instr entry translated calls => ?_, registered.nodup⟩
  · obtain ⟨last, j, translated, calls⟩ := registered.sound info member
    refine ⟨last, j, ?_, calls⟩
    rw [Function.update_of_ne, translated]
    rintro rfl
    rw [plain] at calls
    contradiction
  · refine registered.complete j instr entry ?_ calls
    rwa [Function.update_of_ne] at translated
    rintro rfl
    rw [plain] at calls
    contradiction

theorem Registered.jsr (registered : Registered m table new) (fresh : table q = none)
    {entry top : Nat} (calls : (m.code q).subroutine = some entry)
    (unused : ∀ pc, table pc ≠ some n) :
    Registered m (Function.update table q (some n)) (new ++ [⟨entry, n, top, 0, none⟩]) := by
  constructor
  · intro info member
    rcases List.mem_append.mp member with old | added
    · obtain ⟨last, j, translated, target⟩ := registered.sound info old
      refine ⟨last, j, ?_, target⟩
      rw [Function.update_of_ne, translated]
      rintro rfl
      rw [fresh] at translated
      contradiction
    · obtain rfl := List.mem_singleton.mp added
      exact ⟨rfl, q, Function.update_self .., calls⟩
  · intro j instr target translated target'
    rw [Function.update_apply] at translated
    split at translated
    · rename_i same
      subst same
      refine ⟨_, List.mem_append_right _ (List.mem_singleton_self _), ?_, ?_⟩
      · exact Option.some.inj translated
      · exact Option.some.inj (calls.symm.trans target')
    · obtain ⟨info, member, found⟩ := registered.complete j instr target translated target'
      exact ⟨info, List.mem_append_left _ member, found⟩
  · rw [List.map_append, List.nodup_append]
    refine ⟨registered.nodup, List.nodup_singleton _, ?_⟩
    rintro gosub old _ added rfl
    obtain ⟨info, member, rfl⟩ := List.mem_map.mp old
    obtain ⟨_, j, translated, _⟩ := registered.sound info member
    rw [List.map_singleton, List.mem_singleton] at added
    exact unused j (translated.trans (congrArg some added))

end

/-! The translation of one bytecode. -/

theorem Traversal.pushAll_traverseStack (t : Traversal) (parent : Nat) (npcs : List Nat) :
    (t.pushAll parent npcs).traverseStack =
      (npcs.map fun npc => ⟨parent, npc, t.ops.saveContext⟩).reverse ++ t.traverseStack := by
  have pushed : ∀ stack : List Pending,
      npcs.foldl (fun stack npc => ⟨parent, npc, t.ops.saveContext⟩ :: stack) stack =
        (npcs.map fun npc => ⟨parent, npc, t.ops.saveContext⟩).reverse ++ stack := by
    induction npcs with
    | nil => exact fun _ => rfl
    | cons npc npcs ih =>
        intro stack
        rw [List.foldl_cons, ih]
        simp
  exact pushed _

structure Emits (m : Method) (t : Traversal) (p q : Nat) (instr : Instr)
    (pushed : List Pending) (next : Traversal) : Prop where
  size : next.cfg.size = t.cfg.size + 1
  instrs : next.cfg.instr = Function.update t.cfg.instr t.cfg.size instr
  links : next.cfg.links = (t.cfg.appendInstr p instr).links
  table : next.translatedInstrs = Function.update t.translatedInstrs q (some t.cfg.size)
  stack : next.traverseStack = pushed ++ t.traverseStack
  parents : ∀ entry ∈ pushed, entry.parent = t.cfg.size
  current : ∀ parent npc, next.current = some (parent, npc) → parent = t.cfg.size
  flows : ∀ npc, m.Flows q npc ↔
    (∃ entry ∈ pushed, entry.pc = npc) ∨ next.current = some (t.cfg.size, npc)
  jsr : ∀ entry, (m.code q).subroutine = some entry →
    instr.code = .gosub ∧ instr.typesAfter = instr.typesBefore ∧ pushed = [] ∧
    ∃ top, next.cfg.finallyBlocks =
      t.cfg.finallyBlocks ++ [⟨entry, t.cfg.size, top, 0, none⟩]
  other : (m.code q).subroutine = none → next.cfg.finallyBlocks = t.cfg.finallyBlocks ∧
    next.cfg.maxNumOfFinallyBlocks = t.cfg.maxNumOfFinallyBlocks
  ret : (m.code q).isRet = true → instr.code = .ret ∧
    next.lastRetTranslateInstr = some t.cfg.size
  goesOn : (m.code q).isRet = false → instr.code ≠ .ret ∧
    next.lastRetTranslateInstr = t.lastRetTranslateInstr
  plain : (m.code q).subroutine = none → instr.code ≠ .gosub
  maxNum : t.cfg.maxNumOfFinallyBlocks = Cfg.maxNumAfter t.cfg.finallyBlocks.length →
    next.cfg.maxNumOfFinallyBlocks = Cfg.maxNumAfter next.cfg.finallyBlocks.length

theorem Traversal.translateJsr_emits {m : Method} (t : Traversal) (p q : Nat) {addr : Nat}
    (calls : (m.code q).subroutine = some addr) :
    Emits m t p q ⟨.gosub, t.ops.saveContext, t.ops.saveContext⟩ [] (t.translateJsr m q p addr) where
  size := rfl
  instrs := rfl
  links := rfl
  table := rfl
  stack := rfl
  parents := fun _ member => absurd member List.not_mem_nil
  current := fun _ _ same => (Prod.mk.inj (Option.some.inj same)).1.symm
  flows := fun npc => by
    have single : m.Flows q npc ↔ npc = (m.code q).after q := by
      rw [Method.Flows, Bytecode.npcs_of_subroutine calls, List.mem_singleton]
    rw [single]
    constructor
    · rintro rfl
      exact Or.inr rfl
    · rintro (⟨_, member, _⟩ | same)
      · exact absurd member List.not_mem_nil
      · exact (Prod.mk.inj (Option.some.inj same)).2.symm
  jsr := fun entry target => by
    obtain rfl : addr = entry := Option.some.inj (calls.symm.trans target)
    exact ⟨rfl, rfl, rfl, t.ops.top, rfl⟩
  other := fun absent => by
    rw [calls] at absent
    contradiction
  ret := fun isRet => by
    rw [Bytecode.not_isRet_of_subroutine calls] at isRet
    contradiction
  goesOn := fun _ => ⟨nofun, rfl⟩
  plain := fun absent => by
    rw [calls] at absent
    contradiction
  maxNum := fun before => by
    have counted : (t.translateJsr m q p addr).cfg.finallyBlocks.length =
        t.cfg.finallyBlocks.length + 1 := List.length_append
    rw [counted, Cfg.maxNumAfter, ← before]
    rfl

theorem Traversal.translateBytecode_emits (m : Method) (t : Traversal) (p q : Nat) :
    ∃ instr pushed, Emits m t p q instr pushed (t.translateBytecode m q p) := by
  cases code : m.code q with
  | plain effect flow =>
      refine ⟨⟨.sequence, t.ops.saveContext, (effect t.ops).saveContext⟩, ?_⟩
      cases flow with
      | next npc =>
          refine ⟨[], ?_⟩
          constructor <;>
            simp [translateBytecode, code, emit, Method.Flows, Bytecode.npcs, Bytecode.subroutine,
              Bytecode.isRet, Cfg.appendInstr, Cfg.connectInstruction, Cfg.registerInstr, eq_comm]
      | branch npcs =>
          refine ⟨(npcs.map fun npc =>
            ⟨t.cfg.size, npc, (effect t.ops).saveContext⟩).reverse, ?_⟩
          have stack := (t.emit .sequence q p (effect t.ops)).pushAll_traverseStack t.cfg.size npcs
          constructor
          case stack =>
            simp only [translateBytecode, code]
            exact stack
          all_goals
            simp [translateBytecode, code, emit, pushAll, Method.Flows, Bytecode.npcs,
              Bytecode.subroutine, Bytecode.isRet, Cfg.appendInstr, Cfg.connectInstruction,
              Cfg.registerInstr]
      | stop =>
          refine ⟨[], ?_⟩
          constructor <;>
            simp [translateBytecode, code, emit, Method.Flows, Bytecode.npcs, Bytecode.subroutine,
              Bytecode.isRet, Cfg.appendInstr, Cfg.connectInstruction, Cfg.registerInstr]
  | jsr addr =>
      have calls : (m.code q).subroutine = some addr := by rw [code]; rfl
      have translated : t.translateBytecode m q p = t.translateJsr m q p addr := by
        simp only [translateBytecode, code]
      rw [translated]
      exact ⟨_, _, t.translateJsr_emits p q calls⟩
  | jsrW addr =>
      have calls : (m.code q).subroutine = some addr := by rw [code]; rfl
      have translated : t.translateBytecode m q p = t.translateJsr m q p addr := by
        simp only [translateBytecode, code]
      rw [translated]
      exact ⟨_, _, t.translateJsr_emits p q calls⟩
  | ret index =>
      refine ⟨⟨.ret, t.ops.saveContext, t.ops.saveContext⟩, [], ?_⟩
      constructor <;>
        simp [translateBytecode, code, emit, Method.Flows, Bytecode.npcs, Bytecode.subroutine,
          Bytecode.isRet, Cfg.appendInstr, Cfg.connectInstruction, Cfg.registerInstr]

/-! A traversal under way.  It starts with the bytecode `start`, behind the instruction
`root` of the graph `base`. -/

def Traversal.Awaits (t : Traversal) (arriving : Option (Nat × Nat)) (q : Nat) : Prop :=
  (∃ entry ∈ t.traverseStack, entry.pc = q) ∨ ∃ p, arriving = some (p, q)

structure JsrLinked (m : Method) (t : Traversal) (arriving : Option (Nat × Nat)) (j n : Nat) :
    Prop where
  code : (t.cfg.instr n).code = .gosub
  types : (t.cfg.instr n).typesAfter = (t.cfg.instr n).typesBefore
  linked : (arriving = some (n, (m.code j).after j) ∧ t.cfg.links.succs n = []) ∨
    ((∀ q, arriving ≠ some (n, q)) ∧
      ∃ a, t.translatedInstrs ((m.code j).after j) = some a ∧ t.cfg.links.succs n = [a])

structure Leaves (base : Cfg) (root : Nat) (t : Traversal) (p : Nat) : Prop where
  lt : p < t.cfg.size
  own : p = root ∨ base.size ≤ p
  notRet : (t.cfg.instr p).code ≠ .ret

structure Grown (m : Method) (base : Cfg) (root : Nat) (t : Traversal) : Prop where
  sound : t.cfg.Sound
  size_le : base.size ≤ t.cfg.size
  range : ∀ pc n, t.translatedInstrs pc = some n → base.size ≤ n ∧ n < t.cfg.size
  injective : ∀ pc pc' n, t.translatedInstrs pc = some n → t.translatedInstrs pc' = some n →
    pc = pc'
  frame : ∀ p < base.size, p ≠ root → t.cfg.links.succs p = base.links.succs p
  instrs : ∀ p < base.size, t.cfg.instr p = base.instr p
  last_sound : ∀ n, t.lastRetTranslateInstr = some n →
    ∃ r, t.translatedInstrs r = some n ∧ (m.code r).isRet = true
  last_complete : ∀ r, t.translatedInstrs r ≠ none → (m.code r).isRet = true →
    t.lastRetTranslateInstr ≠ none
  registered : ∃ new, t.cfg.finallyBlocks = base.finallyBlocks ++ new ∧
    Registered m t.translatedInstrs new
  maxNum : t.cfg.maxNumOfFinallyBlocks = Cfg.maxNumAfter t.cfg.finallyBlocks.length

structure Traversed (m : Method) (base : Cfg) (root start : Nat) (arriving : Option (Nat × Nat))
    (t : Traversal) : Prop extends Grown m base root t where
  covers : Covers m.Flows start { q | t.translatedInstrs q ≠ none } { q | t.Awaits arriving q }
  stack : ∀ entry ∈ t.traverseStack, Leaves base root t entry.parent ∧
    (t.cfg.instr entry.parent).code ≠ .gosub
  arrives : ∀ p q, arriving = some (p, q) → Leaves base root t p ∧
    ((t.cfg.instr p).code = .gosub → ∃ j entry, t.translatedInstrs j = some p ∧
      (m.code j).subroutine = some entry ∧ (m.code j).after j = q)
  jsrs : ∀ j n entry, t.translatedInstrs j = some n → (m.code j).subroutine = some entry →
    JsrLinked m t arriving j n
  rets : ∀ r n, t.translatedInstrs r = some n → (m.code r).isRet = true →
    (t.cfg.instr n).code = .ret ∧ t.cfg.links.succs n = []

section

variable {m : Method} {base : Cfg} {root start : Nat} {t : Traversal} {p q n : Nat}

theorem Traversed.connect (inv : Traversed m base root start (some (p, q)) t)
    (translated : t.translatedInstrs q = some n) :
    Traversed m base root start none
      { t with cfg := t.cfg.connectInstruction p n, current := none } := by
  obtain ⟨leaves, fromJsr⟩ := inv.arrives p q rfl
  have succs := Cfg.succs_connectInstruction t.cfg p n
  refine { inv with
    sound := inv.sound.connectInstruction leaves.lt (inv.range q n translated).2
    frame := fun x below other => ?_
    covers := inv.covers.known (fun x => ?_) fun x => ?_
    stack := fun entry member => ?_
    arrives := nofun
    jsrs := fun j g entry known calls => ?_
    rets := fun r g known isRet => ?_ }
  · rw [succs, if_neg, inv.frame x below other]
    rintro rfl
    rcases leaves.own with rfl | above
    · exact other rfl
    · exact Nat.not_lt.mpr above below
  · rintro (onStack | ⟨_, impossible⟩)
    · exact Or.inl onStack
    · contradiction
  · rintro (onStack | ⟨_, same⟩)
    · exact Or.inr (Or.inl onStack)
    · obtain ⟨rfl, rfl⟩ := Prod.mk.inj (Option.some.inj same)
      exact Or.inl fun none => Option.some_ne_none n (translated.symm.trans none)
  · obtain ⟨parent, notGosub⟩ := inv.stack entry member
    exact ⟨⟨parent.lt, parent.own, parent.notRet⟩, notGosub⟩
  · obtain ⟨code, types, linked⟩ := inv.jsrs j g entry known calls
    refine ⟨code, types, Or.inr ⟨nofun, ?_⟩⟩
    rw [succs]
    rcases linked with ⟨same, empty⟩ | ⟨elsewhere, a, found, single⟩
    · obtain ⟨rfl, rfl⟩ := Prod.mk.inj (Option.some.inj same)
      exact ⟨n, translated, by rw [if_pos rfl, empty]; rfl⟩
    · refine ⟨a, found, ?_⟩
      rw [if_neg, single]
      rintro rfl
      exact elsewhere q rfl
  · obtain ⟨code, empty⟩ := inv.rets r g known isRet
    refine ⟨code, ?_⟩
    rw [succs, if_neg, empty]
    rintro rfl
    exact leaves.notRet code

section Emission

variable {instr : Instr} {pushed : List Pending} {next : Traversal}
  (emits : Emits m t p q instr pushed next)

include emits

theorem Emits.own : next.translatedInstrs q = some t.cfg.size := by
  rw [emits.table, Function.update_self]

theorem Emits.elsewhere {x : Nat} (other : x ≠ q) :
    next.translatedInstrs x = t.translatedInstrs x := by
  rw [emits.table, Function.update_of_ne other]

theorem Emits.translated_iff {x : Nat} :
    next.translatedInstrs x ≠ none ↔ x = q ∨ t.translatedInstrs x ≠ none := by
  by_cases same : x = q
  · simp [same, emits.own]
  · simp [same, emits.elsewhere same]

theorem Emits.awaits_iff {x : Nat} :
    next.Awaits next.current x ↔ m.Flows q x ∨ ∃ entry ∈ t.traverseStack, entry.pc = x := by
  unfold Traversal.Awaits
  rw [emits.flows, emits.stack]
  constructor
  · rintro (⟨entry, member, pc⟩ | ⟨parent, current⟩)
    · rcases List.mem_append.mp member with new | old
      · exact Or.inl (Or.inl ⟨entry, new, pc⟩)
      · exact Or.inr ⟨entry, old, pc⟩
    · obtain rfl := emits.current parent x current
      exact Or.inl (Or.inr current)
  · rintro ((⟨entry, new, pc⟩ | current) | ⟨entry, old, pc⟩)
    · exact Or.inl ⟨entry, List.mem_append_left _ new, pc⟩
    · exact Or.inr ⟨_, current⟩
    · exact Or.inl ⟨entry, List.mem_append_right _ old, pc⟩

theorem Emits.oldInstr {x : Nat} (below : x < t.cfg.size) :
    next.cfg.instr x = t.cfg.instr x := by
  rw [emits.instrs, Function.update_of_ne (Nat.ne_of_lt below)]

theorem Emits.newInstr : next.cfg.instr t.cfg.size = instr := by
  rw [emits.instrs, Function.update_self]

theorem Emits.succs (sound : t.cfg.Sound) (x : Nat) : next.cfg.links.succs x =
    if x = p then t.cfg.links.succs p ++ [t.cfg.size] else t.cfg.links.succs x := by
  rw [emits.links, sound.succs_appendInstr]

theorem Emits.newSuccs (sound : t.cfg.Sound) (below : p < t.cfg.size) :
    next.cfg.links.succs t.cfg.size = [] := by
  rw [emits.succs sound, if_neg (Nat.ne_of_gt below), sound.succs_of_le (Nat.le_refl _)]

theorem Emits.leavesOld {x : Nat} (old : Leaves base root t x) : Leaves base root next x where
  lt := by
    rw [emits.size]
    exact Nat.lt_succ_of_lt old.lt
  own := old.own
  notRet := by
    rw [emits.oldInstr old.lt]
    exact old.notRet

theorem Emits.leavesNew (size_le : base.size ≤ t.cfg.size) {x : Nat} (flows : m.Flows q x) :
    Leaves base root next t.cfg.size where
  lt := by
    rw [emits.size]
    exact Nat.lt_succ_self _
  own := Or.inr size_le
  notRet := by
    rw [emits.newInstr]
    cases isRet : (m.code q).isRet with
    | false => exact (emits.goesOn isRet).1
    | true =>
        rw [Method.Flows, Bytecode.npcs_of_isRet isRet] at flows
        contradiction

theorem Grown.emit (grown : Grown m base root t) (leaves : Leaves base root t p)
    (fresh : t.translatedInstrs q = none) : Grown m base root next := by
  have unused : ∀ pc, t.translatedInstrs pc ≠ some t.cfg.size := by
    intro pc known
    exact Nat.lt_irrefl _ (grown.range pc _ known).2
  constructor
  case sound =>
    obtain ⟨mirrored, bounded⟩ := grown.sound.appendInstr leaves.lt instr
    rw [← emits.links] at mirrored bounded
    refine ⟨mirrored, fun x y member => ?_⟩
    rw [emits.size]
    exact bounded x y member
  case size_le =>
    rw [emits.size]
    exact Nat.le_succ_of_le grown.size_le
  case range =>
    intro pc x known
    rw [emits.size]
    by_cases same : pc = q
    · subst same
      obtain rfl := Option.some.inj (emits.own.symm.trans known)
      exact ⟨grown.size_le, Nat.lt_succ_self _⟩
    · rw [emits.elsewhere same] at known
      exact (grown.range pc x known).imp_right Nat.lt_succ_of_lt
  case injective =>
    intro pc pc' x known known'
    by_cases same : pc = q <;> by_cases same' : pc' = q
    · rw [same, same']
    · rw [same, emits.own] at known
      rw [emits.elsewhere same', ← known] at known'
      exact absurd known' (unused pc')
    · rw [same', emits.own] at known'
      rw [emits.elsewhere same, ← known'] at known
      exact absurd known (unused pc)
    · rw [emits.elsewhere same] at known
      rw [emits.elsewhere same'] at known'
      exact grown.injective pc pc' x known known'
  case frame =>
    intro x below other
    rw [emits.succs grown.sound, if_neg, grown.frame x below other]
    rintro rfl
    rcases leaves.own with rfl | above
    · exact other rfl
    · exact Nat.not_lt.mpr above below
  case instrs =>
    intro x below
    rw [emits.oldInstr (Nat.lt_of_lt_of_le below grown.size_le), grown.instrs x below]
  case last_sound =>
    intro x last
    cases isRet : (m.code q).isRet with
    | true =>
        rw [(emits.ret isRet).2] at last
        exact ⟨q, emits.own.trans last, isRet⟩
    | false =>
        rw [(emits.goesOn isRet).2] at last
        obtain ⟨r, known, ret⟩ := grown.last_sound x last
        refine ⟨r, ?_, ret⟩
        rw [emits.elsewhere, known]
        rintro rfl
        rw [fresh] at known
        contradiction
  case last_complete =>
    intro r known ret
    cases isRet : (m.code q).isRet with
    | true =>
        rw [(emits.ret isRet).2]
        exact Option.some_ne_none _
    | false =>
        rw [(emits.goesOn isRet).2]
        refine grown.last_complete r ?_ ret
        rwa [emits.elsewhere] at known
        rintro rfl
        rw [isRet] at ret
        contradiction
  case registered =>
    obtain ⟨new, blocks, registered⟩ := grown.registered
    rw [emits.table]
    cases calls : (m.code q).subroutine with
    | none =>
        refine ⟨new, ?_, registered.plain fresh calls⟩
        rw [(emits.other calls).1, blocks]
    | some entry =>
        obtain ⟨_, _, _, top, appended⟩ := emits.jsr entry calls
        refine ⟨new ++ [⟨entry, t.cfg.size, top, 0, none⟩], ?_,
          registered.jsr fresh calls unused⟩
        rw [appended, blocks, List.append_assoc]
  case maxNum => exact emits.maxNum grown.maxNum

theorem Traversed.covers_emits (inv : Traversed m base root start (some (p, q)) t) :
    Covers m.Flows start { x | next.translatedInstrs x ≠ none }
      { x | next.Awaits next.current x } := by
  have visited : { x | next.translatedInstrs x ≠ none } =
      insert q { x | t.translatedInstrs x ≠ none } := Set.ext fun _ => emits.translated_iff
  rw [visited]
  refine inv.covers.visit (Or.inr ⟨p, rfl⟩) (fun x awaits => ?_)
    (fun x flows => emits.awaits_iff.mpr (Or.inl flows))
    fun x awaits => (emits.awaits_iff.mp awaits).imp_right Or.inl
  rcases awaits with onStack | ⟨_, same⟩
  · exact Or.inr (emits.awaits_iff.mpr (Or.inr onStack))
  · exact Or.inl (Prod.mk.inj (Option.some.inj same)).2.symm

theorem JsrLinked.emit {j g : Nat} (linked : JsrLinked m t (some (p, q)) j g)
    (sound : t.cfg.Sound) (below : g < t.cfg.size) (fresh : t.translatedInstrs q = none) :
    JsrLinked m next next.current j g where
  code := by
    rw [emits.oldInstr below]
    exact linked.code
  types := by
    rw [emits.oldInstr below]
    exact linked.types
  linked := by
    refine Or.inr ⟨fun x current => Nat.ne_of_lt below (emits.current g x current), ?_⟩
    rw [emits.succs sound]
    rcases linked.linked with ⟨here, empty⟩ | ⟨elsewhere, a, found, single⟩
    · obtain ⟨rfl, rfl⟩ := Prod.mk.inj (Option.some.inj here)
      exact ⟨_, emits.own, by rw [if_pos rfl, empty]; rfl⟩
    · refine ⟨a, ?_, ?_⟩
      · rw [emits.elsewhere, found]
        intro atQ
        rw [atQ, fresh] at found
        contradiction
      · rw [if_neg, single]
        rintro rfl
        exact elsewhere q rfl

theorem Emits.jsrLinked {entry : Nat} (calls : (m.code q).subroutine = some entry)
    (ends : next.cfg.links.succs t.cfg.size = []) :
    JsrLinked m next next.current q t.cfg.size := by
  obtain ⟨gosub, types, empty, _⟩ := emits.jsr entry calls
  refine ⟨by rw [emits.newInstr]; exact gosub, by rw [emits.newInstr]; exact types,
    Or.inl ⟨?_, ends⟩⟩
  have flows : m.Flows q ((m.code q).after q) := by
    rw [Method.Flows, Bytecode.npcs_of_subroutine calls]
    exact List.mem_singleton_self _
  rcases (emits.flows _).mp flows with ⟨entry, member, _⟩ | current
  · rw [empty] at member
    contradiction
  · exact current

theorem Traversed.emit (inv : Traversed m base root start (some (p, q)) t)
    (fresh : t.translatedInstrs q = none) :
    Traversed m base root start next.current next := by
  obtain ⟨leaves, fromJsr⟩ := inv.arrives p q rfl
  have newSuccs := emits.newSuccs inv.sound leaves.lt
  constructor
  case toGrown => exact inv.toGrown.emit emits leaves fresh
  case covers => exact inv.covers_emits emits
  case stack =>
    intro entry member
    rw [emits.stack] at member
    rcases List.mem_append.mp member with new | old
    · have flows := (emits.flows entry.pc).mpr (Or.inl ⟨entry, new, rfl⟩)
      rw [emits.parents entry new]
      refine ⟨emits.leavesNew inv.size_le flows, ?_⟩
      rw [emits.newInstr]
      cases calls : (m.code q).subroutine with
      | none => exact emits.plain calls
      | some target =>
          obtain ⟨_, _, empty, _⟩ := emits.jsr target calls
          rw [empty] at new
          contradiction
    · obtain ⟨parent, notGosub⟩ := inv.stack entry old
      refine ⟨emits.leavesOld parent, ?_⟩
      rw [emits.oldInstr parent.lt]
      exact notGosub
  case arrives =>
    intro parent npc current
    obtain rfl := emits.current parent npc current
    have flows := (emits.flows npc).mpr (Or.inr current)
    refine ⟨emits.leavesNew inv.size_le flows, fun gosub => ?_⟩
    rw [emits.newInstr] at gosub
    cases calls : (m.code q).subroutine with
    | none => exact absurd gosub (emits.plain calls)
    | some target =>
        refine ⟨q, target, emits.own, calls, ?_⟩
        rw [Method.Flows, Bytecode.npcs_of_subroutine calls] at flows
        exact (List.mem_singleton.mp flows).symm
  case jsrs =>
    intro j g entry known calls
    by_cases same : j = q
    · subst same
      obtain rfl := Option.some.inj (emits.own.symm.trans known)
      exact emits.jsrLinked calls newSuccs
    · rw [emits.elsewhere same] at known
      exact (inv.jsrs j g entry known calls).emit emits inv.sound (inv.range j g known).2 fresh
  case rets =>
    intro r g known isRet
    by_cases same : r = q
    · subst same
      obtain rfl := Option.some.inj (emits.own.symm.trans known)
      exact ⟨by rw [emits.newInstr]; exact (emits.ret isRet).1, newSuccs⟩
    · rw [emits.elsewhere same] at known
      obtain ⟨code, empty⟩ := inv.rets r g known isRet
      refine ⟨by rw [emits.oldInstr (inv.range r g known).2]; exact code, ?_⟩
      rw [emits.succs inv.sound, if_neg, empty]
      rintro rfl
      exact leaves.notRet code

end Emission

theorem Traversed.visit (inv : Traversed m base root start (some (p, q)) t) :
    Traversed m base root start (t.visit m p q).current (t.visit m p q) := by
  unfold Traversal.visit
  split
  · rename_i instr translated
    exact inv.connect translated
  · rename_i fresh
    obtain ⟨instr, pushed, emits⟩ := t.translateBytecode_emits m p q
    exact inv.emit emits fresh

theorem Traversed.pop (inv : Traversed m base root start none t) {entry : Pending}
    {rest : List Pending} (stack : t.traverseStack = entry :: rest) (ops : Operands) :
    Traversed m base root start (some (entry.parent, entry.pc))
      { t with traverseStack := rest, ops := ops } := by
  have awaits : ∀ {x}, t.Awaits none x ↔
      Traversal.Awaits { t with traverseStack := rest, ops := ops }
        (some (entry.parent, entry.pc)) x := by
    intro x
    unfold Traversal.Awaits
    rw [stack]
    constructor
    · rintro (⟨other, member, pc⟩ | ⟨_, impossible⟩)
      · rcases List.mem_cons.mp member with rfl | member
        · exact Or.inr ⟨_, by rw [pc]⟩
        · exact Or.inl ⟨other, member, pc⟩
      · contradiction
    · rintro (⟨other, member, pc⟩ | ⟨_, same⟩)
      · exact Or.inl ⟨other, List.mem_cons_of_mem _ member, pc⟩
      · exact Or.inl ⟨entry, List.mem_cons_self, (Prod.mk.inj (Option.some.inj same)).2⟩
  have first := inv.stack entry (by rw [stack]; exact List.mem_cons_self)
  refine { inv with
    covers := inv.covers.known (fun _ => awaits.mpr) fun _ waits => Or.inr (awaits.mp waits)
    stack := fun other member =>
      have listed : other ∈ t.traverseStack := by
        rw [stack]
        exact List.mem_cons_of_mem _ member
      have ⟨parent, notGosub⟩ := inv.stack other listed
      ⟨⟨parent.lt, parent.own, parent.notRet⟩, notGosub⟩
    arrives := fun x y same => ?_
    jsrs := fun j g target known calls => ?_ }
  · obtain ⟨rfl, rfl⟩ := Prod.mk.inj (Option.some.inj same)
    obtain ⟨parent, notGosub⟩ := first
    exact ⟨⟨parent.lt, parent.own, parent.notRet⟩, fun gosub => absurd gosub notGosub⟩
  · obtain ⟨code, types, linked⟩ := inv.jsrs j g target known calls
    refine ⟨code, types, Or.inr ⟨fun x same => ?_, ?_⟩⟩
    · obtain ⟨rfl, _⟩ := Prod.mk.inj (Option.some.inj same)
      exact first.2 code
    · rcases linked with ⟨impossible, _⟩ | ⟨_, found⟩
      · contradiction
      · exact found

theorem Traversed.round (inv : Traversed m base root start t.current t) :
    Traversed m base root start (t.round m).current (t.round m) := by
  unfold Traversal.round
  split
  · rename_i lastInstr nextPc current
    rw [current] at inv
    exact inv.visit
  · rename_i current
    rw [current] at inv
    split
    · rw [current]
      exact inv
    · rename_i entry rest stack
      exact (inv.pop stack _).visit

theorem Traversed.initially {cfg : Cfg} (sound : cfg.Sound) (below : root < cfg.size)
    (prologue : (cfg.instr root).code = .prologue)
    (maxNum : cfg.maxNumOfFinallyBlocks = Cfg.maxNumAfter cfg.finallyBlocks.length)
    (ops : Operands) :
    Traversed m cfg root start none (startTraverse cfg ops root start) where
  sound := sound
  size_le := Nat.le_refl _
  range := nofun
  injective := nofun
  frame := fun _ _ _ => rfl
  instrs := fun _ _ => rfl
  covers := by
    convert @Covers.start _ m.Flows start using 1
    · simp [startTraverse]
    · simp [startTraverse, Traversal.Awaits, eq_comm]
  stack := by
    intro entry member
    obtain rfl := List.mem_singleton.mp member
    have code : ∀ other, other ≠ .prologue → (cfg.instr root).code ≠ other := by
      rintro other differs rfl
      exact differs prologue
    exact ⟨⟨below, Or.inl rfl, code _ nofun⟩, code _ nofun⟩
  arrives := nofun
  jsrs := nofun
  rets := nofun
  last_sound := nofun
  last_complete := fun _ known => absurd rfl known
  registered := ⟨[], (List.append_nil _).symm, nofun, nofun, List.nodup_nil⟩
  maxNum := maxNum

structure Copied (m : Method) (base : Cfg) (root start : Nat) (t : Traversal) : Prop
    extends Grown m base root t where
  translated_iff : ∀ q, t.translatedInstrs q ≠ none ↔ m.Reaches start q
  jsrs : ∀ j n entry, t.translatedInstrs j = some n → (m.code j).subroutine = some entry →
    (t.cfg.instr n).typesAfter = (t.cfg.instr n).typesBefore ∧
    ∃ a, t.translatedInstrs ((m.code j).after j) = some a ∧ t.cfg.links.succs n = [a]
  rets : ∀ r n, t.translatedInstrs r = some n → (m.code r).isRet = true →
    t.cfg.links.succs n = []

theorem Traversed.copied (inv : Traversed m base root start t.current t)
    (finished : t.unfinished = false) : Copied m base root start t := by
  obtain ⟨current, stack⟩ : t.current = none ∧ t.traverseStack = [] := by
    simpa [Traversal.unfinished] using finished
  rw [current] at inv
  have nothing : ∀ {x}, ¬ t.Awaits none x := by
    rintro x (⟨entry, member, _⟩ | ⟨_, impossible⟩)
    · rw [stack] at member
      contradiction
    · contradiction
  refine { inv with
    translated_iff := fun q => inv.covers.visited_iff fun _ => nothing
    jsrs := fun j n entry known calls => ?_
    rets := fun r n known isRet => (inv.rets r n known isRet).2 }
  · obtain ⟨_, types, linked⟩ := inv.jsrs j n entry known calls
    refine ⟨types, ?_⟩
    rcases linked with ⟨impossible, _⟩ | ⟨_, found⟩
    · contradiction
    · exact found

theorem Traversal.traverse_copied {cfg : Cfg} {ops : Operands} {fuel : Nat} {final : Traversal}
    (sound : cfg.Sound) (below : root < cfg.size) (prologue : (cfg.instr root).code = .prologue)
    (maxNum : cfg.maxNumOfFinallyBlocks = Cfg.maxNumAfter cfg.finallyBlocks.length)
    (run : (startTraverse cfg ops root start).traverse m fuel = some final) :
    Copied m cfg root start final := by
  have initially : Traversed m cfg root start (startTraverse cfg ops root start).current
      (startTraverse cfg ops root start) := Traversed.initially sound below prologue maxNum ops
  obtain ⟨inv, finished⟩ := whileLoop_run
    (fun t : Traversal => Traversed m cfg root start t.current t)
    (fun t next inv _ step => by
      obtain rfl := Option.some.inj step
      exact inv.round)
    initially run
  exact inv.copied finished

end

end LaTTe.Translator.Finally
