import LaTTe.Switches.Translated
import LaTTe.Translator.Finally.Progress
import LaTTe.Translator.WidePrefix

/-! The main flow of a method is translated alike by the traversals for its graph, its
subroutines and its operands: exactly what control can reach. -/

namespace LaTTe.Switches

open LaTTe.Data (Covers)

variable {F : Type} {m : Method F} {t t' : Traversal F} {pc : Nat}

def Method.Flows (m : Method F) (p q : Nat) : Prop :=
  ∃ block, m.block p = some block ∧ q ∈ (block.next.toList ++ block.pushes.reverse).map (·.2)

namespace Traversal

theorem covers_round {root : Nat}
    (covers : Covers m.Flows root { pc | t.translatedInstrs pc ≠ none }
      { pc | pc ∈ (t.current.toList ++ t.traverseStack).map (·.2) })
    (run : t.round m = some t') :
    Covers m.Flows root { pc | t'.translatedInstrs pc ≠ none }
      { pc | pc ∈ (t'.current.toList ++ t'.traverseStack).map (·.2) } := by
  obtain ⟨⟨entry, rest⟩, popped, run⟩ := Option.bind_eq_some_iff.mp run
  obtain ⟨list, loaded, _, translated⟩ := pop_eq popped
  rw [list, ← translated] at covers
  simp only [visit] at run
  split at run
  · rename_i instr known
    cases run
    refine covers.known (fun pc waits => ?_) fun pc waits => ?_
    · simp only [loaded, Option.toList_none, List.nil_append] at waits
      exact List.mem_cons_of_mem _ waits
    · simp only [loaded, Option.toList_none, List.nil_append]
      rcases List.mem_cons.mp waits with rfl | waits
      · exact .inl fun new => Option.some_ne_none instr (known.symm.trans new)
      · exact .inr waits
  · obtain ⟨block, code, _, table, entries⟩ := translateBytecode_eq run
    have visited : { pc | t'.translatedInstrs pc ≠ none } =
        insert entry.2 { pc | rest.translatedInstrs pc ≠ none } := by
      ext pc
      by_cases same : pc = entry.2 <;> simp [table, same]
    have pending : (t'.current.toList ++ t'.traverseStack).map (·.2) =
        (block.next.toList ++ block.pushes.reverse).map (·.2) ++
          rest.traverseStack.map (·.2) := by
      rw [entries]
      cases block.next <;> simp [relocate, Function.comp_def]
    rw [visited, pending]
    refine covers.visit List.mem_cons_self (fun pc waits => ?_) (fun pc flows => ?_) fun pc waits => ?_
    · exact (List.mem_cons.mp waits).imp_right (List.mem_append_right _)
    · obtain ⟨block', code', flows⟩ := flows
      cases code.symm.trans code'
      exact List.mem_append_left _ flows
    · rcases List.mem_append.mp waits with new | old
      · exact .inl ⟨block, code, new⟩
      · exact .inr (List.mem_cons_of_mem _ old)

theorem Reached.covers (reached : Reached m t) :
    Covers m.Flows m.startPc { pc | t.translatedInstrs pc ≠ none }
      { pc | pc ∈ (t.current.toList ++ t.traverseStack).map (·.2) } := by
  induction reached with
  | refl =>
      convert @Covers.start _ m.Flows m.startPc using 1
      · simp [start]
      · simp [start]
  | tail _ taken ih => exact covers_round ih taken

theorem Finished.translated_iff (finished : Finished m t) :
    t.translatedInstrs pc ≠ none ↔ Relation.ReflTransGen m.Flows m.startPc pc := by
  obtain ⟨reached, stopped⟩ := finished
  have empty : t.current.toList ++ t.traverseStack = [] := by
    unfold pop at stopped
    split at stopped
    · contradiction
    · rename_i idle
      split at stopped
      · rename_i stack
        rw [idle, stack]
        rfl
      · contradiction
  refine reached.covers.visited_iff fun pc waits => ?_
  rw [empty] at waits
  exact List.not_mem_nil waits

end Traversal

end LaTTe.Switches

namespace LaTTe.Translator.Wide

open LaTTe.Data (Covers reaches_congr)

/-- An opcode and the `wide` in front of it count as one bytecode. -/
def Bytecodes.Flows (m : Bytecodes) (p q : Nat) : Prop :=
  if (m.opcode p).isWide then q ∈ (m.translateBytecode true (p + 1)).flow.npcs
  else q ∈ (m.translateBytecode false p).flow.npcs

namespace Translation

variable {m : Method} {t t' : Translation} {pc q : Nat}

def Pending (m : Bytecodes) (t : Translation) (q : Nat) : Prop :=
  q ∈ t.traverseStack ∨ ∃ pc, t.current = some pc ∧
    if t.wide then q ∈ (m.translateBytecode true pc).flow.npcs else q = pc

theorem pending_of_unflagged (flag : t.wide = false) :
    Pending m.toBytecodes t q ↔ t.current = some q ∨ q ∈ t.traverseStack := by
  simp [Pending, flag, or_comm]

theorem mem_processForNpc (t : Translation) (flow : Flow) :
    (processForNpc t flow).current = some q ∨ q ∈ (processForNpc t flow).traverseStack ↔
      q ∈ flow.npcs ∨ q ∈ t.traverseStack := by
  cases flow <;> simp [processForNpc, Flow.npcs, eq_comm]

theorem index_translate (m : Bytecodes) (t : Translation) (pc : Nat) :
    (t.translate m pc).index = t.index := by
  simp only [translate]
  cases (m.translateBytecode t.wide pc).flow <;> rfl

/-- What the traversal of the main flow has come to. -/
abbrev MainFlow (m : Method) (t : Translation) : Prop :=
  Covers m.Flows m.startPc { pc | pc ∈ m.starts ∧ t.translatedInstrs pc = true }
    { pc | Pending m.toBytecodes t pc }

theorem mainFlow_translate (sound : Sound m t) (careful : Careful m.toBytecodes t)
    (covers : MainFlow m t) (current : t.current = some pc) : MainFlow m (t.translate m.toBytecodes pc) := by
  have waits : ∀ q, (t.translate m.toBytecodes pc).wide = false →
      (Pending m.toBytecodes (t.translate m.toBytecodes pc) q ↔
        q ∈ (m.translateBytecode t.wide pc).flow.npcs ∨ q ∈ t.traverseStack) :=
    fun q flag => (pending_of_unflagged flag).trans (mem_processForNpc _ _)
  cases flag : t.wide with
  | true =>
      obtain ⟨pc', current', behind, before, -⟩ := sound.flagged flag
      cases current.symm.trans current'
      obtain ⟨-, wide, -⟩ := translateBytecode_prefixed behind fun kind =>
        careful ⟨flag, by rw [current, Option.map_some, kind]⟩
      have done : (t.translate m.toBytecodes pc).wide = false := by
        rw [wide_translate, flag, wide]
      -- the opcode itself is none of the bytecodes
      have visited : ∀ q ∈ m.starts, (t.translate m.toBytecodes pc).translatedInstrs q = true ↔
          t.translatedInstrs q = true := by
        intro q start
        rw [translatedInstrs_translate]
        by_cases same : q = m.recordedPc t.wide pc
        · have recorded : q = pc - 1 := by
            unfold Bytecodes.recordedPc at same
            split at same
            · exact same
            · exact absurd (same ▸ start) behind.not_mem
          rw [same, Function.update_self, ← same, recorded, before]
        · rw [Function.update_of_ne same]
      have pending : ∀ q, Pending m.toBytecodes (t.translate m.toBytecodes pc) q ↔
          Pending m.toBytecodes t q := by
        intro q
        rw [waits q done, flag]
        simp [Pending, current, flag, or_comm]
      unfold MainFlow
      convert covers using 1
      · ext q
        exact and_congr_right (visited q)
      · ext q
        exact pending q
  | false =>
      have start := sound.current flag pc current
      have recorded : m.recordedPc t.wide pc = pc := if_neg (by simp [flag])
      have visited : { q | q ∈ m.starts ∧
            (t.translate m.toBytecodes pc).translatedInstrs q = true } =
          insert pc { q | q ∈ m.starts ∧ t.translatedInstrs q = true } := by
        ext q
        rw [Set.mem_ofPred_eq, translatedInstrs_translate, recorded]
        by_cases same : q = pc <;> simp [same, start]
      have pending : ∀ q, Pending m.toBytecodes (t.translate m.toBytecodes pc) q ↔
          m.Flows pc q ∨ q ∈ t.traverseStack := by
        intro q
        unfold Bytecodes.Flows
        cases kind : (m.opcode pc).isWide with
        | false =>
            rw [if_neg Bool.false_ne_true, waits q, flag]
            rw [wide_translate, flag, (translateBytecode_plain_next start).1, kind]
        | true =>
            have flow : (m.translateBytecode t.wide pc).flow = .next (pc + 1) := by
              rw [translate_wide kind]
              rfl
            have wide : (m.translateBytecode t.wide pc).wide = true := by
              rw [translate_wide kind]
              rfl
            obtain ⟨next, stack⟩ := current_translate_of_next m t pc flow
            simp [Pending, wide_translate, wide, next, stack, or_comm]
      unfold MainFlow
      rw [visited]
      refine covers.visit ((pending_of_unflagged flag).mpr (.inl current)) (fun q before => ?_)
        (fun q flows => (pending q).mpr (.inl flows)) fun q after => ?_
      · rcases (pending_of_unflagged flag).mp before with same | stack
        · exact .inl (Option.some.inj (same.symm.trans current))
        · exact .inr ((pending q).mpr (.inr stack))
      · exact ((pending q).mp after).imp_right fun stack =>
          (pending_of_unflagged flag).mpr (.inr stack)

theorem mainFlow_step (sound : Sound m t) (careful : Careful m.toBytecodes t)
    (covers : t.index = 0 → MainFlow m t) (taken : t.step m.toBytecodes = some t')
    (main : t'.index = 0) : MainFlow m t' := by
  cases steps_of_step taken with
  | @connect pc current known =>
      have flag : t.wide = false := by
        by_contra flag
        obtain ⟨pc', current', -, -, new⟩ := sound.flagged (Bool.not_eq_false _ ▸ flag)
        cases current.symm.trans current'
        exact Bool.false_ne_true (new.symm.trans known)
      refine (covers main).known (fun q => ?_) fun q => ?_
      · rintro (stack | ⟨_, impossible, _⟩)
        · exact .inl stack
        · contradiction
      · intro waits
        rcases (pending_of_unflagged flag).mp waits with same | stack
        · cases current.symm.trans same
          exact .inl ⟨sound.current flag pc current, known⟩
        · exact .inr (.inl stack)
  | @translate pc current new =>
      rw [index_translate] at main
      exact mainFlow_translate sound careful (covers main) current
  | @pop pc traverseStack idle stack =>
      have flag : t.wide = false := by
        by_contra flag
        obtain ⟨_, current, -⟩ := sound.flagged (Bool.not_eq_false _ ▸ flag)
        exact Option.some_ne_none _ (current.symm.trans idle)
      unfold MainFlow
      convert covers main using 1
      ext q
      simp [Pending, flag, idle, stack, eq_comm, or_comm]
  | enter idle stack block => cases main

theorem mainFlow_of_careful
    (run : Relation.ReflTransGen (CarefulStep m.toBytecodes) (start m.toBytecodes) t) :
    t.index = 0 → MainFlow m t := by
  induction run with
  | refl =>
      intro _
      unfold MainFlow
      convert @Covers.start _ m.Flows m.startPc using 1
      · simp [start]
      · simp [start, Pending]
  | tail run taken ih => exact mainFlow_step (sound_of_careful run) taken.1 ih taken.2

theorem translated_iff
    (run : Relation.ReflTransGen (CarefulStep m.toBytecodes) (start m.toBytecodes) t)
    (main : t.index = 0) (idle : t.current = none) (empty : t.traverseStack = [])
    (start : pc ∈ m.starts) :
    t.translatedInstrs pc = true ↔ Relation.ReflTransGen m.Flows m.startPc pc := by
  rw [← (mainFlow_of_careful run main).visited_iff fun q => by simp [Pending, idle, empty]]
  exact (and_iff_right start).symm

end Translation

/-- Control goes as in the method. -/
structure Method.SameFlow (m : Method) (startPc : Nat) (flows : Nat → Nat → Prop) : Prop where
  startPc : startPc = m.startPc
  flows : ∀ p ∈ m.starts, ∀ q, flows p q ↔ m.Flows p q

theorem Method.flows_mem (m : Method) {p q : Nat} (start : p ∈ m.starts) (flows : m.Flows p q) :
    q ∈ m.starts := by
  unfold Bytecodes.Flows at flows
  cases wide : (m.opcode p).isWide with
  | false =>
      rw [wide, if_neg Bool.false_ne_true] at flows
      exact (translateBytecode_plain_next start).2 wide q flows
  | true =>
      rw [wide, if_pos rfl] at flows
      refine (translateBytecode_prefixed ⟨p, start, wide, rfl⟩ fun ret => ?_).2.2 q flows
      rw [translate_ret ret] at flows
      exact List.not_mem_nil flows

theorem Method.SameFlow.reaches_iff {m : Method} {startPc pc : Nat} {flows : Nat → Nat → Prop}
    (same : m.SameFlow startPc flows) :
    Relation.ReflTransGen flows startPc pc ↔ Relation.ReflTransGen m.Flows m.startPc pc := by
  rw [same.startPc]
  exact (reaches_congr m.start_mem (fun _ start _ => m.flows_mem start)
    fun p start q => (same.flows p start q).symm).symm

end LaTTe.Translator.Wide

namespace LaTTe.Translator

/-- Three models of the same traversal translate the same bytecodes in the main flow. -/
theorem mainFlows_agree {F : Type} {switches : Switches.Method F} {finals : Finally.Method}
    {m : Wide.Method} (sameSwitches : m.SameFlow switches.startPc switches.Flows)
    (sameFinals : m.SameFlow finals.startPc finals.Flows) {s : Switches.Traversal F}
    (finished : Switches.Traversal.Finished switches s) {tr : Finally.Translation}
    {ops : Finally.Operands} {fuel : Nat}
    (translated : Finally.translateMainFlow finals ops fuel = some tr) {t : Wide.Translation}
    (run : Relation.ReflTransGen (Wide.Translation.CarefulStep m.toBytecodes)
      (Wide.Translation.start m.toBytecodes) t)
    (main : t.index = 0) (idle : t.current = none) (empty : t.traverseStack = []) {pc : Nat}
    (start : pc ∈ m.starts) :
    (s.translatedInstrs pc ≠ none ↔ t.translatedInstrs pc = true) ∧
      ((∃ n, tr.Translates 0 pc n) ↔ t.translatedInstrs pc = true) := by
  have progress := Finally.Progress.mainFlow translated
  rw [Wide.Translation.translated_iff run main idle empty start]
  constructor
  · exact finished.translated_iff.trans sameSwitches.reaches_iff
  · exact (progress.translated_iff 0 progress.nonempty pc).trans sameFinals.reaches_iff

end LaTTe.Translator
