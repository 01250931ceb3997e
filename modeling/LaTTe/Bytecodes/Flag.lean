import LaTTe.Bytecodes.Joins

namespace LaTTe.Bytecodes

open LaTTe.Data
open LaTTe.Translator
open LaTTe.Translator.Wide (getInt16 Opcode Decoded)

/-! The analysis of the flag `wide` takes the steps of this one, without its marks and bounds. -/

namespace Analysis

variable {m : Method} {w : Wide.Bytecodes} {a a' : Analysis} {pc : Nat}
  {analysed : List Decoded}

/-- Where a bytecode goes on that the flag does not concern. -/
def targets (m : Method) (pc : Nat) : List Int :=
  let len := getOpcodeLen (m.opcode pc)
  let addr := Method.padded pc
  match m.kind pc with
  | .ifCond => [(pc + len : Nat), pc + getInt16 m.code (pc + 1)]
  | .goto => [pc + getInt16 m.code (pc + 1)]
  | .gotoW => [pc + getInt32 m.code (pc + 1)]
  | .jsr => [(pc + len : Nat), pc + getInt16 m.code (pc + 1)]
  | .jsrW => [(pc + len : Nat), pc + getInt32 m.code (pc + 1)]
  | .tableswitch =>
      let size := (getWord32 m.code (addr + 8) - getWord32 m.code (addr + 4) + 1).toInt
      (List.range size.toNat).reverse.map
        (fun i => (pc : Int) + getInt32 m.code (addr + 8 + (i + 1) * 4)) ++
      [pc + getInt32 m.code addr]
  | .lookupswitch =>
      (List.range (getInt32 m.code (addr + 4)).toNat).reverse.map
        (fun i => (pc : Int) + getInt32 m.code (addr + 4 + (i + 1) * 8)) ++
      [pc + getInt32 m.code addr]
  | .other => [(pc + len : Nat)]
  | .return_ | .ret | .wide | .loadOrStore | .iinc => []

/-- Both analyses are given the same method. -/
structure SameMethod (m : Method) (w : Wide.Bytecodes) : Prop where
  code : w.code = m.code
  handlers : w.handlerPcs = m.exceptionTable.map Handler.handlerPc
  npcs : ∀ pc, w.npcs pc = (targets m pc).map Int.toNat

def flag (a : Analysis) (analysed : List Decoded) : Wide.Analysis :=
  ⟨a.wide, a.tstack, a.visited, analysed⟩

def OfKind : Opcode → Kind → Prop
  | .iload, kind | .lload, kind | .fload, kind | .dload, kind | .aload, kind
  | .istore, kind | .lstore, kind | .fstore, kind | .dstore, kind | .astore, kind =>
      kind = .loadOrStore
  | .iinc, kind => kind = .iinc
  | .ret, kind => kind = .ret
  | .wide, kind | .widened _, kind => kind = .wide
  | .other _, kind => kind ≠ .loadOrStore ∧ kind ≠ .iinc ∧ kind ≠ .ret ∧ kind ≠ .wide

instance (opcode : Opcode) (kind : Kind) : Decidable (OfKind opcode kind) := by
  cases opcode <;> unfold OfKind <;> infer_instance

theorem ofKind_byte : ∀ byte : BitVec 8, OfKind (Opcode.ofByte byte) (kindOf byte.toNat) := by
  decide +kernel

theorem push_flag (run : a.push m pc = some a') :
    a'.flag analysed = (a.flag analysed).push pc := by
  unfold push at run
  split at run
  · cases run
    rfl
  · cases run

theorem processForNpc_flag {npc : Int} (run : a.processForNpc m npc = some a') :
    a'.flag analysed = (a.flag analysed).processForNpc npc.toNat := by
  unfold processForNpc at run
  rw [Wide.Analysis.processForNpc]
  split at run
  · split at run
    · rename_i visited
      cases run
      exact (if_pos visited).symm
    · rename_i fresh
      exact (push_flag run).trans (if_neg fresh).symm
  · cases run

theorem processForNpcs_flag {npcs : List Int} (run : npcs.foldlM (processForNpc m) a = some a') :
    a'.flag analysed =
      (npcs.map Int.toNat).foldl Wide.Analysis.processForNpc (a.flag analysed) := by
  induction npcs generalizing a with
  | nil =>
      cases run
      rfl
  | cons npc npcs ih =>
      rw [List.foldlM_cons, Option.bind_eq_bind, Option.bind_eq_some_iff] at run
      obtain ⟨middle, first, rest⟩ := run
      rw [ih rest, processForNpc_flag first]
      rfl

theorem processForSubroutine_flag {addr : Int} (run : a.processForSubroutine m addr = some a') :
    a'.flag analysed = (a.flag analysed).processForNpc addr.toNat := by
  unfold processForSubroutine at run
  split at run
  · split at run
    · rename_i visited
      cases run
      exact (if_pos visited).symm
    · exact processForNpc_flag run
  · cases run

theorem targets_flag (others : OfKind (.other 0) (m.kind pc))
    (run : a.analyseBytecode m pc = some a') :
    a'.flag analysed =
      ((targets m pc).map Int.toNat).foldl Wide.Analysis.processForNpc
        (a.flag analysed) := by
  unfold analyseBytecode at run
  unfold targets
  cases kind : m.kind pc with
  | goto | gotoW | other =>
      rw [kind] at run
      exact processForNpc_flag run
  | ifCond =>
      rw [kind] at run
      obtain ⟨middle, first, second⟩ := Option.bind_eq_some_iff.mp run
      rw [processForNpc_flag second, processForNpc_flag first]
      rfl
  | jsr | jsrW =>
      rw [kind] at run
      obtain ⟨middle, first, second⟩ := Option.bind_eq_some_iff.mp run
      rw [processForSubroutine_flag second, processForNpc_flag first]
      rfl
  | tableswitch | lookupswitch =>
      rw [kind] at run
      obtain ⟨middle, first, second⟩ := Option.bind_eq_some_iff.mp run
      rw [← List.foldlM_map] at first
      rw [processForNpc_flag second, processForNpcs_flag first, List.map_append, List.foldl_append]
      rfl
  | return_ =>
      rw [kind] at run
      cases run
      rfl
  | ret => exact absurd kind others.2.2.1
  | wide => exact absurd kind others.2.2.2
  | loadOrStore => exact absurd kind others.1
  | iinc => exact absurd kind others.2.1

theorem analyse_of_decoded {decoded : Decoded} (decodes : w.analyseBytecode a.wide pc = decoded)
    (after : a'.flag (decoded :: analysed) =
      decoded.flow.npcs.foldl Wide.Analysis.processForNpc
        ({ a with wide := decoded.wide }.flag (decoded :: analysed))) :
    a'.flag (w.analyseBytecode a.wide pc :: analysed) = (a.flag analysed).analyse w pc := by
  subst decodes
  exact after

theorem analyseBytecode_flag (same : SameMethod m w) (run : a.analyseBytecode m pc = some a') :
    a'.flag (w.analyseBytecode a.wide pc :: analysed) = (a.flag analysed).analyse w pc := by
  have ofKind : OfKind (w.opcode pc) (m.kind pc) := by
    rw [Wide.Bytecodes.opcode, same.code]
    exact ofKind_byte _
  obtain ⟨-, -, -, wideLen, localLen, iincLen⟩ :=
    opcodeLen_of_kind (m.opcode pc) (opcode_lt m pc)
  have kind_eq : m.kind pc = kindOf (m.opcode pc) := rfl
  have decodes := Wide.Bytecodes.analyseBytecode.eq_def w a.wide pc
  cases opcode : w.opcode pc with
  | other number =>
      rw [opcode] at ofKind decodes
      refine analyse_of_decoded decodes ?_
      rw [targets_flag ofKind run, ← same.npcs]
      rfl
  | iinc =>
      rw [opcode] at ofKind decodes
      have kind : m.kind pc = .iinc := ofKind
      unfold analyseBytecode at run
      rw [kind, iincLen (kind_eq.symm.trans kind)] at run
      refine analyse_of_decoded decodes ?_
      rw [processForNpc_flag run, Int.toNat_natCast]
      cases a.wide <;> rfl
  | ret =>
      rw [opcode] at ofKind decodes
      have kind : m.kind pc = .ret := ofKind
      unfold analyseBytecode at run
      rw [kind] at run
      cases run
      exact analyse_of_decoded decodes rfl
  | wide | widened =>
      rw [opcode] at ofKind decodes
      have kind : m.kind pc = .wide := ofKind
      unfold analyseBytecode at run
      rw [kind, wideLen (kind_eq.symm.trans kind)] at run
      refine analyse_of_decoded decodes ?_
      rw [processForNpc_flag run, Int.toNat_natCast]
      rfl
  | _ =>
      rw [opcode] at ofKind decodes
      have kind : m.kind pc = .loadOrStore := ofKind
      unfold analyseBytecode at run
      rw [kind, localLen (kind_eq.symm.trans kind)] at run
      refine analyse_of_decoded decodes ?_
      rw [processForNpc_flag run, Int.toNat_natCast]
      cases a.wide <;> rfl

theorem step_flag (same : SameMethod m w) (run : a.step m = some a') :
    ∃ decoded, (a.flag analysed).step w = some (a'.flag (decoded :: analysed)) := by
  unfold step at run
  unfold Wide.Analysis.step
  cases top : a.tstack with
  | nil =>
      rw [top] at run
      cases run
  | cons pc tstack =>
      rw [top] at run
      refine ⟨w.analyseBytecode a.wide pc, ?_⟩
      have top' : (a.flag analysed).tstack = pc :: tstack := top
      rw [top', analyseBytecode_flag same run]
      rfl

theorem markTry_flag {handler : Handler} (run : a.markTry m handler = some a') :
    a'.flag analysed = a.flag analysed := by
  unfold markTry at run
  split at run
  · cases run
  · cases run
    rfl

theorem insertExceptionHandlers_flag {handlers : List Handler}
    (run : handlers.foldlM
      (fun a handler => (a.markTry m handler).bind fun a => a.push m handler.handlerPc) a =
        some a') :
    a'.flag analysed = (handlers.map Handler.handlerPc).foldl Wide.Analysis.push
      (a.flag analysed) := by
  induction handlers generalizing a with
  | nil =>
      cases run
      rfl
  | cons handler handlers ih =>
      rw [List.foldlM_cons, Option.bind_eq_bind, Option.bind_eq_some_iff] at run
      obtain ⟨middle, first, rest⟩ := run
      obtain ⟨marked, marks, pushed⟩ := Option.bind_eq_some_iff.mp first
      rw [ih rest, push_flag pushed, markTry_flag marks]
      rfl

theorem start_flag (same : SameMethod m w) {roots : Analysis}
    (inserted : start.insertExceptionHandlers m = some roots) (pushed : roots.push m 0 = some a) :
    a.flag [] = Wide.Analysis.start w := by
  rw [push_flag pushed, insertExceptionHandlers_flag inserted, Wide.Analysis.start,
    same.handlers, List.foldl_append]
  rfl

/-- The run of the analysis is a run of the analysis of the flag. -/
theorem bytecodeAnalysis_flag (same : SameMethod m w) {fuel : Nat}
    (run : bytecodeAnalysis m fuel = some a) :
    ∃ analysed, Relation.ReflTransGen (fun before after => before.step w = some after)
      (Wide.Analysis.start w) (a.flag analysed) ∧ a.tstack = [] := by
  obtain ⟨roots, inserted, run⟩ := Option.bind_eq_some_iff.mp run
  obtain ⟨first, pushed, run⟩ := Option.bind_eq_some_iff.mp run
  have reached : ∃ analysed,
      Relation.ReflTransGen (fun before after => before.step w = some after)
        (Wide.Analysis.start w) (first.flag analysed) :=
    ⟨[], start_flag same inserted pushed ▸ .refl⟩
  have preserved : ∀ before after : Analysis,
      (∃ analysed, Relation.ReflTransGen (fun before after => before.step w = some after)
        (Wide.Analysis.start w) (before.flag analysed)) →
      (!before.tstack.isEmpty) = true → before.step m = some after →
      ∃ analysed, Relation.ReflTransGen (fun before after => before.step w = some after)
        (Wide.Analysis.start w) (after.flag analysed) := by
    rintro before after ⟨analysed, steps⟩ _ taken
    obtain ⟨decoded, step⟩ := step_flag same taken
    exact ⟨decoded :: analysed, steps.tail step⟩
  obtain ⟨⟨analysed, steps⟩, empty⟩ := whileLoop_run _ preserved reached run
  exact ⟨analysed, steps, by simpa using empty⟩

end Analysis

end LaTTe.Bytecodes
