import LaTTe.Data.SequentialMoves
import LaTTe.Registers.Consistent
import LaTTe.Registers.Moves

namespace LaTTe.Registers

open LaTTe.Data (Move performAll performAll_append performAll_congr performAll_of_not_target
  Sequential Simultaneous)
open LaTTe.Sparc (Word)

/-! What the copies do word by word. -/

instance : Nontrivial Word := ⟨0, 1, by decide⟩

abbrev IsScratch (r : Nat) : Prop := r = g1 ∨ r = g2

def wordMoves (type : VarType) (fromR toR : Nat) : List (Move Nat) :=
  if type = .double then
    if IsHW fromR ↔ IsHW toR then [⟨fromR, toR⟩, ⟨fromR + 1, toR + 1⟩]
    else [⟨fromR, toR + 1⟩, ⟨fromR + 1, toR⟩]
  else [⟨fromR, toR⟩]

/-- The places between which copies of the type work. -/
def Copyable (type : VarType) (fromR toR : Nat) : Prop :=
  (regNumber ≤ fromR ∧ regNumber ≤ toR) ∨
  match type with
  | .float =>
      IsFloat fromR ∧ IsFloat toR ∨
      (IsInteger fromR ∨ IsFloat fromR) ∧ regNumber ≤ toR ∨
      regNumber ≤ fromR ∧ (IsInteger toR ∨ IsFloat toR)
  | type => Suits type fromR ∧ Suits type toR

def Performs (instrs : List Instr) (moves : List (Move Nat)) : Prop :=
  ∀ m, ∃ m', run instrs m = some m' ∧
    ∀ s, ¬ IsScratch s → m'.place s = performAll moves m.place s

theorem run_append (first second : List Instr) (m : Machine) :
    run (first ++ second) m = (run first m).bind (run second) := by
  rw [run, List.foldlM_append]
  rfl

namespace Machine

theorem exists_place (contents : Nat → Word) : ∃ m : Machine, m.place = contents := by
  refine ⟨⟨contents, fun offset => contents ((-12 - offset) / 4 + regNumber).toNat⟩, ?_⟩
  funext r
  by_cases hw : IsHW r
  · exact place_reg hw
  · rw [place_slot (Nat.not_lt.mp hw)]
    change contents _ = contents r
    congr 1
    unfold getSpillOffset IsHW regNumber at *
    omega

end Machine

namespace Performs

variable {instrs instrs' : List Instr} {moves moves' : List (Move Nat)}

theorem nil : Performs [] [] := fun m => ⟨m, rfl, fun _ _ => rfl⟩

theorem append (performs : Performs instrs moves) (performs' : Performs instrs' moves')
    (reads : ∀ move ∈ moves', ¬ IsScratch move.source) :
    Performs (instrs ++ instrs') (moves ++ moves') := by
  intro m
  obtain ⟨m', first, places⟩ := performs m
  obtain ⟨m'', second, places'⟩ := performs' m'
  refine ⟨m'', ?_, fun s kept => ?_⟩
  · rw [run_append, first]
    exact second
  · rw [places' s kept, performAll_append]
    exact performAll_congr (fun s => ¬ IsScratch s) places reads (.inl kept)

end Performs

section

variable {type : VarType} {fromR toR : Nat} {m m' : Machine} {move : Move Nat}

theorem wordMoves_single (single : type ≠ .double) :
    wordMoves type fromR toR = [⟨fromR, toR⟩] := if_neg single

theorem wordMoves_double (same : IsHW fromR ↔ IsHW toR) :
    wordMoves .double fromR toR = [⟨fromR, toR⟩, ⟨fromR + 1, toR + 1⟩] := by
  rw [wordMoves, if_pos rfl, if_pos same]

theorem wordMoves_crossed (crossed : ¬ (IsHW fromR ↔ IsHW toR)) :
    wordMoves .double fromR toR = [⟨fromR, toR + 1⟩, ⟨fromR + 1, toR⟩] := by
  rw [wordMoves, if_pos rfl, if_neg crossed]

theorem words_iff (type : VarType) (fromR toR : Nat) (m m' : Machine) :
    m'.words type toR = m.words type fromR ↔
      ∀ move ∈ wordMoves type fromR toR, m'.place move.target = m.place move.source := by
  by_cases double : type = .double
  · subst double
    by_cases hw : IsHW fromR <;> by_cases hw' : IsHW toR <;>
      simp [wordMoves, Machine.words, hw, hw', and_comm]
  · simp [wordMoves, Machine.words, double]

theorem mem_wordMoves (member : move ∈ wordMoves type fromR toR) :
    (fromR ≤ move.source ∧ move.source < fromR + type.width) ∧
      toR ≤ move.target ∧ move.target < toR + type.width := by
  by_cases double : type = .double
  · subst double
    rw [VarType.width_double rfl]
    by_cases same : IsHW fromR ↔ IsHW toR
    · rw [wordMoves_double same] at member
      simp only [List.mem_cons, List.not_mem_nil, or_false] at member
      rcases member with rfl | rfl
      · exact ⟨by simp, by simp⟩
      · exact ⟨by simp, by simp⟩
    · rw [wordMoves_crossed same] at member
      simp only [List.mem_cons, List.not_mem_nil, or_false] at member
      rcases member with rfl | rfl
      · exact ⟨by simp, by simp⟩
      · exact ⟨by simp, by simp⟩
  · rw [wordMoves_single double, List.mem_singleton] at member
    subst member
    rw [VarType.width_single double]
    exact ⟨by simp, by simp⟩

/-- A place that is brought elsewhere and left alone otherwise. -/
theorem Brings.performs {instrs : List Instr}
    (brings : Brings instrs (fun _ => False) type fromR toR)
    (apart : type = .double → fromR + 1 ≠ toR) :
    Performs instrs (wordMoves type fromR toR) := by
  intro m
  obtain ⟨m', done, words, places⟩ := brings m
  refine ⟨m', done, fun s _ => ?_⟩
  by_cases outside : s < toR ∨ toR + type.width ≤ s
  · rw [places s outside id, performAll_of_not_target]
    intro move member same
    have := (mem_wordMoves member).2
    omega
  · rw [words_iff] at words
    by_cases double : type = .double
    · subst double
      rw [VarType.width_double rfl] at outside
      have apart := apart rfl
      by_cases same : IsHW fromR ↔ IsHW toR
      · rw [wordMoves_double same] at words ⊢
        have first := words _ List.mem_cons_self
        have second := words _ (List.mem_cons_of_mem _ List.mem_cons_self)
        by_cases low : s = toR
        · subst low
          simpa [Move.perform, Data.performAll] using first
        · obtain rfl : s = toR + 1 := by omega
          simpa [Move.perform, Data.performAll, apart] using second
      · rw [wordMoves_crossed same] at words ⊢
        have first := words _ List.mem_cons_self
        have second := words _ (List.mem_cons_of_mem _ List.mem_cons_self)
        by_cases low : s = toR
        · subst low
          have different : fromR ≠ s := fun equal => same (by rw [equal])
          simpa [Move.perform, Data.performAll, different] using second
        · obtain rfl : s = toR + 1 := by omega
          simpa [Move.perform, Data.performAll] using first
    · rw [wordMoves_single double] at words ⊢
      rw [VarType.width_single double] at outside
      obtain rfl : s = toR := by omega
      simpa [Move.perform, Data.performAll] using words _ List.mem_cons_self

theorem Suits.odd_apart (suits : Suits type fromR) (suits' : Suits type toR)
    (double : type = .double) : fromR + 1 ≠ toR := by
  have := suits.even double
  have := suits'.even double
  omega

theorem brings_generateGeneralCopy (suits : Suits type fromR) (suits' : Suits type toR)
    (moved : IsHW fromR ∨ IsHW toR) :
    ∃ instrs, generateGeneralCopy type fromR toR = some instrs ∧
      Brings instrs (fun _ => False) type fromR toR := by
  unfold generateGeneralCopy
  by_cases hw : IsHW fromR
  · by_cases hw' : IsHW toR
    · rw [if_pos ⟨hw, hw'⟩]
      exact brings_generateCopy hw hw' suits suits'
    · rw [if_neg fun both => hw' both.2, if_pos hw]
      exact brings_generateSpill hw (Nat.not_lt.mp hw') suits suits'
  · have hw' := moved.resolve_left hw
    rw [if_neg fun both => hw both.1, if_neg hw, if_pos hw']
    exact brings_generatePromotion (Nat.not_lt.mp hw) hw' suits suits'

theorem performs_memory {scratch : Nat} (isScratch : IsScratch scratch)
    (slot : regNumber ≤ fromR) (slot' : regNumber ≤ toR) :
    Performs [.ld scratch (getSpillOffset fromR), .st scratch (getSpillOffset toR)]
      [⟨fromR, toR⟩] := by
  intro m
  have hw : IsInteger scratch ∧ IsHW scratch := by
    unfold IsScratch g1 g2 at isScratch
    unfold IsHW regNumber
    omega
  have load : Instr.exec m (.ld scratch (getSpillOffset fromR)) =
      some (m.setReg scratch (m.frame (getSpillOffset fromR))) :=
    if_pos ⟨hw.1, getSpillOffset_aligned fromR⟩
  have store : ∀ m : Machine, Instr.exec m (.st scratch (getSpillOffset toR)) =
      some (m.setFrame (getSpillOffset toR) (m.regs scratch)) :=
    fun m => if_pos ⟨hw.1, getSpillOffset_aligned toR⟩
  refine ⟨_, by simp only [run, List.foldlM_cons, List.foldlM_nil, load, store]; rfl, ?_⟩
  intro s kept
  have different : s ≠ scratch := by
    rintro rfl
    exact kept isScratch
  rw [Machine.place_setFrame slot', Machine.place_setReg hw.2, if_neg different]
  simp only [Data.performAll_cons, Data.performAll_nil, Move.perform]
  by_cases target : s = toR
  · subst target
    rw [if_pos rfl, Function.update_self, Machine.place_slot slot]
    exact Function.update_self _ _ _
  · rw [if_neg target, Function.update_of_ne target]

theorem slot_not_scratch {r : Nat} (slot : regNumber ≤ r) : ¬ IsScratch r := by
  unfold IsScratch g1 g2
  unfold regNumber at slot
  omega

/-- The copies do their moves, if the places take them. -/
theorem performs_generateGeneralCopy (copyable : Copyable type fromR toR) :
    ∃ instrs, generateGeneralCopy type fromR toR = some instrs ∧
      Performs instrs (wordMoves type fromR toR) := by
  by_cases slots : regNumber ≤ fromR ∧ regNumber ≤ toR
  · obtain ⟨slot, slot'⟩ := slots
    refine ⟨_, by
      rw [generateGeneralCopy, if_neg fun both => Nat.not_lt.mpr slot both.1,
        if_neg (Nat.not_lt.mpr slot), if_neg (Nat.not_lt.mpr slot')], ?_⟩
    have first := performs_memory (.inl rfl) slot slot'
    by_cases double : type = .double
    · subst double
      rw [wordMoves_double (iff_of_false (Nat.not_lt.mpr slot) (Nat.not_lt.mpr slot'))]
      refine first.append (performs_memory (.inr rfl) (Nat.le_succ_of_le slot)
        (Nat.le_succ_of_le slot')) fun move member => ?_
      rw [List.mem_singleton.mp member]
      exact slot_not_scratch (Nat.le_succ_of_le slot)
    · rw [if_neg double, wordMoves_single double]
      exact first
  · have moved : IsHW fromR ∨ IsHW toR := by
      unfold IsHW
      omega
    have suited (suits : Suits type fromR ∧ Suits type toR) :
        ∃ instrs, generateGeneralCopy type fromR toR = some instrs ∧
          Performs instrs (wordMoves type fromR toR) := by
      obtain ⟨instrs, generated, brings⟩ := brings_generateGeneralCopy suits.1 suits.2 moved
      exact ⟨instrs, generated, brings.performs (suits.1.odd_apart suits.2)⟩
    have kinds := copyable.resolve_left slots
    cases type with
    | float =>
        rcases kinds with ⟨float, float'⟩ | ⟨integer | float, slot'⟩ | ⟨slot, integer | float⟩
        · exact suited ⟨.inl float, .inl float'⟩
        · have hw : IsHW fromR := Nat.lt_trans integer (by decide)
          have notFloat : ¬ IsFloat fromR := fun float => Nat.not_lt.mpr float.1 integer
          refine ⟨[.st fromR (getSpillOffset toR)], ?_, ?_⟩
          · rw [generateGeneralCopy, if_neg fun both => Nat.not_lt.mpr slot' both.2, if_pos hw]
            exact if_neg notFloat
          · have brings : Brings [.st fromR (getSpillOffset toR)] (fun _ => False) .float fromR
                toR :=
              brings_store hw slot' nofun fun m => if_pos ⟨integer, getSpillOffset_aligned toR⟩
            exact brings.performs nofun
        · exact suited ⟨.inl float, .inr slot'⟩
        · have hw : IsHW toR := Nat.lt_trans integer (by decide)
          have notFloat : ¬ IsFloat toR := fun float => Nat.not_lt.mpr float.1 integer
          refine ⟨[.ld toR (getSpillOffset fromR)], ?_, ?_⟩
          · rw [generateGeneralCopy, if_neg fun both => Nat.not_lt.mpr slot both.1,
              if_neg (Nat.not_lt.mpr slot), if_pos hw]
            exact if_neg notFloat
          · have brings : Brings [.ld toR (getSpillOffset fromR)] (fun _ => False) .float fromR
                toR :=
              brings_load slot hw nofun fun m => if_pos ⟨integer, getSpillOffset_aligned fromR⟩
            exact brings.performs nofun
        · exact suited ⟨.inr slot, .inl float⟩
    | int => exact suited kinds
    | long => exact suited kinds
    | ref => exact suited kinds
    | ivoid => exact suited kinds
    | double => exact suited kinds
    | cc => exact suited kinds
    | fvoid => exact suited kinds

theorem taken_of_run {instr : Instr} {asked : Prop} [Decidable asked] {after : Machine}
    (exec : instr.exec m = if asked then some after else none)
    (done : run [instr] m = some m') : asked := by
  rw [run, List.foldlM_cons, exec] at done
  by_contra refused
  rw [if_neg refused] at done
  cases done

/-- Where a copy runs, the places take it; a double that is loaded is aligned. -/
theorem copyable_of_run {instrs : List Instr}
    (generated : generateGeneralCopy type fromR toR = some instrs)
    (done : run instrs m = some m')
    (even : type = .double → regNumber ≤ fromR → IsHW toR → fromR % 2 = 0) :
    Copyable type fromR toR := by
  unfold generateGeneralCopy at generated
  by_cases hw : IsHW fromR
  · by_cases hw' : IsHW toR
    · rw [if_pos ⟨hw, hw'⟩] at generated
      have integers (same : instrs = [.add toR fromR]) : IsInteger toR ∧ IsInteger fromR :=
        taken_of_run rfl (same ▸ done)
      refine .inr ?_
      cases type with
      | float =>
          cases generated
          have floats : IsFloat toR ∧ IsFloat fromR := taken_of_run rfl done
          exact .inl ⟨floats.2, floats.1⟩
      | double =>
          cases generated
          have pairs : IsPair toR ∧ IsPair fromR := taken_of_run rfl done
          exact ⟨⟨.inl pairs.2.1, pairs.2.2⟩, .inl pairs.1.1, pairs.1.2⟩
      | int =>
          cases generated
          exact ⟨.inl (integers rfl).2, .inl (integers rfl).1⟩
      | long =>
          cases generated
          exact ⟨.inl (integers rfl).2, .inl (integers rfl).1⟩
      | ref =>
          cases generated
          exact ⟨.inl (integers rfl).2, .inl (integers rfl).1⟩
      | ivoid =>
          cases generated
          exact ⟨.inl (integers rfl).2, .inl (integers rfl).1⟩
      | cc => cases generated
      | fvoid => cases generated
    · have slot' : regNumber ≤ toR := Nat.not_lt.mp hw'
      rw [if_neg fun both => hw' both.2, if_pos hw] at generated
      have integer (same : instrs = [.st fromR (getSpillOffset toR)]) : IsInteger fromR :=
        have asked : IsInteger fromR ∧ getSpillOffset toR % 4 = 0 :=
          taken_of_run rfl (same ▸ done)
        asked.1
      refine .inr ?_
      cases type with
      | float =>
          by_cases float : IsFloat fromR
          · exact .inr (.inl ⟨.inr float, slot'⟩)
          · have stored := (if_neg float).symm.trans generated
            cases stored
            exact .inr (.inl ⟨.inl (integer rfl), slot'⟩)
      | double =>
          cases generated
          have asked : IsPair fromR ∧ (getSpillOffset toR - 4) % 8 = 0 := taken_of_run rfl done
          have even' : toR % 2 = 0 := by
            have aligned := asked.2
            unfold getSpillOffset regNumber at aligned
            omega
          exact ⟨⟨.inl asked.1.1, asked.1.2⟩, .inr slot', even'⟩
      | int =>
          cases generated
          exact ⟨.inl (integer rfl), .inr slot'⟩
      | long =>
          cases generated
          exact ⟨.inl (integer rfl), .inr slot'⟩
      | ref =>
          cases generated
          exact ⟨.inl (integer rfl), .inr slot'⟩
      | ivoid =>
          cases generated
          exact ⟨.inl (integer rfl), .inr slot'⟩
      | cc => cases generated
      | fvoid => cases generated
  · have slot : regNumber ≤ fromR := Nat.not_lt.mp hw
    by_cases hw' : IsHW toR
    · rw [if_neg fun both => hw both.1, if_neg hw, if_pos hw'] at generated
      have integer (same : instrs = [.ld toR (getSpillOffset fromR)]) : IsInteger toR :=
        have asked : IsInteger toR ∧ getSpillOffset fromR % 4 = 0 :=
          taken_of_run rfl (same ▸ done)
        asked.1
      refine .inr ?_
      cases type with
      | float =>
          by_cases float : IsFloat toR
          · exact .inr (.inr ⟨slot, .inr float⟩)
          · have loaded := (if_neg float).symm.trans generated
            cases loaded
            exact .inr (.inr ⟨slot, .inl (integer rfl)⟩)
      | double =>
          have even := even rfl slot hw'
          have aligned := getSpillOffset_pair even
          have loaded := (if_pos (by omega)).symm.trans generated
          cases loaded
          have asked : IsPair toR ∧ (getSpillOffset fromR - 4) % 8 = 0 := taken_of_run rfl done
          exact ⟨⟨.inr slot, even⟩, .inl asked.1.1, asked.1.2⟩
      | int =>
          cases generated
          exact ⟨.inr slot, .inl (integer rfl)⟩
      | long =>
          cases generated
          exact ⟨.inr slot, .inl (integer rfl)⟩
      | ref =>
          cases generated
          exact ⟨.inr slot, .inl (integer rfl)⟩
      | ivoid =>
          cases generated
          exact ⟨.inr slot, .inl (integer rfl)⟩
      | cc => cases generated
      | fvoid => cases generated
    · exact .inl ⟨slot, Nat.not_lt.mp hw'⟩

theorem Suits.copyable (suits : Suits type fromR) (suits' : Suits type toR) :
    Copyable type fromR toR := by
  unfold Suits at suits suits'
  unfold Copyable
  cases type with
  | float =>
      dsimp only at suits suits' ⊢
      omega
  | int => exact .inr ⟨suits, suits'⟩
  | long => exact .inr ⟨suits, suits'⟩
  | ref => exact .inr ⟨suits, suits'⟩
  | ivoid => exact .inr ⟨suits, suits'⟩
  | double => exact .inr ⟨suits, suits'⟩
  | cc => exact absurd suits id
  | fvoid => exact absurd suits id

theorem Suits.not_scratch {r s : Nat} (suits : Suits type r) (kept : ¬ IsScratch r) (low : r ≤ s)
    (high : s < r + type.width) : ¬ IsScratch s := by
  by_cases double : type = .double
  · subst double
    have first := suits.1
    unfold IsFloat regNumber at first
    unfold IsScratch g1 g2
    omega
  · rw [VarType.width_single double] at high
    obtain rfl : s = r := by omega
    exact kept

theorem sequential_wordMoves (apart : Apart fromR type.width toR type.width) :
    Sequential (wordMoves type fromR toR) fun _ => False where
  ordered := by
    refine List.pairwise_iff_forall_sublist.mpr fun {earlier later} sub same => ?_
    have first := mem_wordMoves (sub.subset List.mem_cons_self)
    have second := mem_wordMoves (sub.subset (List.mem_cons_of_mem _ List.mem_cons_self))
    unfold Apart at apart
    omega
  agree := by
    intro move member other member' same
    by_cases double : type = .double
    · subst double
      by_cases straight : IsHW fromR ↔ IsHW toR
      · rw [wordMoves_double straight] at member member'
        simp only [List.mem_cons, List.not_mem_nil, or_false] at member member'
        rcases member with rfl | rfl <;> rcases member' with rfl | rfl <;> simp_all
      · rw [wordMoves_crossed straight] at member member'
        simp only [List.mem_cons, List.not_mem_nil, or_false] at member member'
        rcases member with rfl | rfl <;> rcases member' with rfl | rfl <;> simp_all
    · rw [wordMoves_single double, List.mem_singleton] at member member'
      rw [member, member']
  apart _ _ := id

theorem words_of_moves (places : ∀ s, ¬ IsScratch s →
      m'.place s = performAll (wordMoves type fromR toR) m.place s)
    (apart : Apart fromR type.width toR type.width)
    (kept : ∀ s, toR ≤ s → s < toR + type.width → ¬ IsScratch s) :
    m'.words type toR = m.words type fromR := by
  rw [words_iff]
  intro move member
  have within := (mem_wordMoves member).2
  have simultaneous : Simultaneous Word _ _ := (sequential_wordMoves apart).simultaneous
  rw [places _ (kept _ within.1 within.2)]
  exact (simultaneous m.place).1 move member

end

end LaTTe.Registers
