import LaTTe.Translator.Finally.Traversed

namespace LaTTe.Translator.Finally

open LaTTe.Data (LinkGraph redirect)

/-! A translated subroutine in the place of its `jsr`. -/

theorem mem_redirect {old new item : Nat} {items : List Nat}
    (member : item ∈ redirect old new items) : item ∈ items ∨ (item = new ∧ old ∈ items) := by
  obtain ⟨source, listed, moved⟩ := List.mem_map.mp member
  split at moved
  · rename_i same
    exact Or.inr ⟨moved.symm, same ▸ listed⟩
  · exact Or.inl (moved ▸ listed)

namespace Cfg

variable {cfg : Cfg}

theorem Sound.removeInstr (sound : cfg.Sound) {instr succ : Nat}
    (only : cfg.links.succs instr = [succ]) (moves : succ ≠ instr) :
    (cfg.removeInstr instr).Sound ∧ ∀ p, p ≠ instr →
      (cfg.removeInstr instr).links.succs p = redirect instr succ (cfg.links.succs p) := by
  have bypassed := LinkGraph.bypassed sound.mirrored only moves
  refine ⟨⟨bypassed.mirrored, fun p s member => ?_⟩, bypassed.succs⟩
  have target : succ < cfg.size := by
    refine (sound.bounded instr succ ?_).2
    rw [only]
    exact List.mem_singleton_self succ
  by_cases same : p = instr
  · subst same
    exact sound.bounded p s (bypassed.subset member)
  · replace member : s ∈ redirect instr succ (cfg.links.succs p) := by
      rw [← bypassed.succs p same]
      exact member
    rcases mem_redirect member with old | ⟨rfl, old⟩
    · exact sound.bounded p s old
    · exact ⟨(sound.bounded p _ old).1, target⟩

structure Connected (cfg : Cfg) (info : FinallyBlockInfo) (s : Nat) (after : Cfg) : Prop where
  sound : after.Sound
  size : after.size = cfg.size
  instr : after.instr = cfg.instr
  finallyBlocks : after.finallyBlocks = cfg.finallyBlocks
  maxNum : after.maxNumOfFinallyBlocks = cfg.maxNumOfFinallyBlocks
  succs : ∀ p, p ≠ info.gosub → after.links.succs p =
    redirect info.gosub info.header (if info.lastInstr = some p then [s] else cfg.links.succs p)

theorem connectFinallyBlock_connected (sound : cfg.Sound) {index s : Nat}
    {info : FinallyBlockInfo} (listed : cfg.finallyBlocks[index]? = some info)
    (only : cfg.links.succs info.gosub = [s]) (header : info.header < cfg.size)
    (other : info.header ≠ info.gosub)
    (last : ∀ l, info.lastInstr = some l →
      l < cfg.size ∧ l ≠ info.gosub ∧ cfg.links.succs l = []) :
    Connected cfg info s (cfg.connectFinallyBlock index) := by
  obtain ⟨gosub, target⟩ := sound.bounded info.gosub s (by rw [only]; exact List.mem_singleton_self s)
  let entered := (cfg.disconnectInstruction info.gosub s).connectInstruction info.gosub info.header
  have enteredSound : entered.Sound :=
    (sound.disconnectInstruction info.gosub s).connectInstruction gosub header
  have enteredSuccs : ∀ p, entered.links.succs p =
      if p = info.gosub then [info.header] else cfg.links.succs p := by
    intro p
    rw [succs_connectInstruction, succs_disconnectInstruction, succs_disconnectInstruction,
      if_pos rfl, only]
    split
    · simp
    · rfl
  cases lastInstr : info.lastInstr with
  | none =>
      have connected : cfg.connectFinallyBlock index = entered.removeInstr info.gosub := by
        simp only [connectFinallyBlock, listed, lastInstr, only, List.headD_cons, entered]
      obtain ⟨removed, succs⟩ := enteredSound.removeInstr
        (by rw [enteredSuccs, if_pos rfl]) other
      rw [connected]
      refine ⟨removed, rfl, rfl, rfl, rfl, fun p differs => ?_⟩
      rw [succs p differs, enteredSuccs, if_neg differs, lastInstr, if_neg nofun]
  | some l =>
      obtain ⟨lBelow, lOther, lEmpty⟩ := last l lastInstr
      have connected : cfg.connectFinallyBlock index =
          (entered.connectInstruction l s).removeInstr info.gosub := by
        simp only [connectFinallyBlock, listed, lastInstr, only, List.headD_cons, entered]
      have leftSound : (entered.connectInstruction l s).Sound :=
        enteredSound.connectInstruction lBelow target
      have leftSuccs : ∀ p, p ≠ info.gosub → (entered.connectInstruction l s).links.succs p =
          if some l = some p then [s] else cfg.links.succs p := by
        intro p differs
        rw [succs_connectInstruction, enteredSuccs, enteredSuccs, if_neg differs, if_neg lOther,
          lEmpty]
        by_cases same : p = l
        · subst same
          rw [if_pos rfl, if_pos rfl]
          rfl
        · rw [if_neg same, if_neg]
          exact fun equal => same (Option.some.inj equal).symm
      have leftOnly : (entered.connectInstruction l s).links.succs info.gosub =
          [info.header] := by
        rw [succs_connectInstruction, if_neg (Ne.symm lOther), enteredSuccs, if_pos rfl]
      obtain ⟨removed, succs⟩ := leftSound.removeInstr leftOnly other
      rw [connected]
      refine ⟨removed, rfl, rfl, rfl, rfl, fun p differs => ?_⟩
      rw [succs p differs, leftSuccs p differs, lastInstr]

end Cfg

end LaTTe.Translator.Finally
