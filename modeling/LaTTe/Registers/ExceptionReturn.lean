import LaTTe.Registers.ReturnMap
import LaTTe.Registers.WordMoves

namespace LaTTe.Registers

open LaTTe.Data (Move performAll performAll_of_not_target Sequential Simultaneous
  simultaneous_iff eq_of_same)
open LaTTe.Sparc (Word)

/-! The copies before the return from an exception handler. -/

def exceptionReturnCopy (exceptionReturnType : VarType) (h returningMap : AllocStat) (i : Nat) :
    Option (List Instr) :=
  match returningMap.map i with
  | none => some []
  | some newReg =>
      if h.map i = some newReg then some []
      else (h.map i).bind fun orgReg =>
        generateGeneralCopy exceptionReturnType orgReg newReg

/-- All copies are of the type that the handler returns; when it returns nothing that type is
none of those that are copied, as `cc`. -/
def exceptionReturnCopies (numVars : Nat) (exceptionReturnType : VarType)
    (h returningMap : AllocStat) : Option (List Instr) :=
  ((List.range numVars).mapM (exceptionReturnCopy exceptionReturnType h returningMap)).map
    List.flatten

/-! What they are for. -/

def Moving (h returningMap : AllocStat) (i orgReg newReg : Nat) : Prop :=
  h.map i = some orgReg ∧ returningMap.map i = some newReg ∧ orgReg ≠ newReg

/-- The same variable of the caller.  The map has its width, but may have the type of another
variable of its place. -/
structure Alike (v w : Var) : Prop where
  number : w.number = v.number
  width : w.type.width = v.type.width

/-- The copies act as one step, and then every variable of the returning map is in its place. -/
def Restores (numVars : Nat) (type : VarType) (h returningMap : AllocStat) : Prop :=
  ∃ instrs, exceptionReturnCopies numVars type h returningMap = some instrs ∧
    ∀ m, ∃ m', run instrs m = some m' ∧
      (∀ i orgReg newReg, Moving h returningMap i orgReg newReg →
        m'.words type newReg = m.words type orgReg) ∧
      (∀ newReg, ∀ v ∈ returningMap.rmap newReg, ∃ orgReg, (∃ w ∈ h.rmap orgReg, Alike v w) ∧
        m'.words v.type newReg = m.words v.type orgReg) ∧
      ∀ s, ¬ IsScratch s → (∀ i orgReg newReg, Moving h returningMap i orgReg newReg →
        s < newReg ∨ newReg + type.width ≤ s) → m'.place s = m.place s

structure Carries (type other : VarType) (orgReg newReg : Nat) : Prop where
  copyable : Copyable type orgReg newReg
  enough : other.width ≤ type.width
  straight : other.width = type.width ∨ (IsHW orgReg ↔ IsHW newReg)

def returnMoves (type : VarType) (h returningMap : AllocStat) (i : Nat) : List (Move Nat) :=
  match h.map i, returningMap.map i with
  | some orgReg, some newReg => if orgReg = newReg then [] else wordMoves type orgReg newReg
  | _, _ => []

def Staying (h returningMap : AllocStat) (s : Nat) : Prop :=
  ∃ r, ∃ v ∈ returningMap.rmap r, (∃ w ∈ h.rmap r, Alike v w) ∧ r ≤ s ∧ s < r + v.type.width

/-- Every variable of the map is somewhere, and the copies of the returned type bring it; no
copy reads a word that an earlier one has written, two write a word only with the same, and
none writes a word of a variable that stays. -/
structure Restorable (numVars : Nat) (type : VarType) (h returningMap : AllocStat) : Prop where
  carried : ∀ newReg, ∀ v ∈ returningMap.rmap newReg, ∃ orgReg,
    (∃ w ∈ h.rmap orgReg, Alike v w) ∧ (orgReg ≠ newReg → Carries type v.type orgReg newReg)
  sequential : Sequential ((List.range numVars).flatMap (returnMoves type h returningMap))
    (Staying h returningMap)

section

variable {numVars : Nat} {reserved reserved' : Nat → Bool} {h returningMap : AllocStat}
  {type : VarType} {v w : Var} {i orgReg newReg : Nat}

theorem Alike.double (alike : Alike v w) (double : v.type = .double) : w.type = .double := by
  by_contra single
  have width := alike.width
  rw [VarType.width_double double, VarType.width_single single] at width
  cases width

theorem Moving.returnMoves_eq (moving : Moving h returningMap i orgReg newReg) :
    returnMoves type h returningMap i = wordMoves type orgReg newReg := by
  obtain ⟨org, new, moved⟩ := moving
  rw [returnMoves, org, new]
  exact if_neg moved

theorem Moving.copy_eq (moving : Moving h returningMap i orgReg newReg) :
    exceptionReturnCopy type h returningMap i = generateGeneralCopy type orgReg newReg := by
  obtain ⟨org, new, moved⟩ := moving
  rw [exceptionReturnCopy, new, org]
  exact if_neg fun same => moved (Option.some.inj same)

theorem moving_of_mem_returnMoves {move : Move Nat}
    (member : move ∈ returnMoves type h returningMap i) :
    ∃ orgReg newReg, Moving h returningMap i orgReg newReg ∧
      move ∈ wordMoves type orgReg newReg := by
  unfold returnMoves at member
  split at member
  · rename_i orgReg newReg org new
    split at member
    · cases member
    · rename_i moved
      exact ⟨orgReg, newReg, ⟨org, new, moved⟩, member⟩
  · cases member

theorem performs_copies (type : VarType) (h returningMap : AllocStat) (numbers : List Nat)
    (each : ∀ i ∈ numbers, ∃ instrs, exceptionReturnCopy type h returningMap i = some instrs ∧
      Performs instrs (returnMoves type h returningMap i))
    (reads : ∀ i ∈ numbers, ∀ move ∈ returnMoves type h returningMap i,
      ¬ IsScratch move.source) :
    ∃ parts, numbers.mapM (exceptionReturnCopy type h returningMap) = some parts ∧
      Performs parts.flatten (numbers.flatMap (returnMoves type h returningMap)) := by
  induction numbers with
  | nil => exact ⟨[], rfl, .nil⟩
  | cons i rest ih =>
      obtain ⟨instrs, generated, performs⟩ := each i List.mem_cons_self
      obtain ⟨parts, generated', performs'⟩ :=
        ih (fun j member => each j (List.mem_cons_of_mem _ member))
          fun j member => reads j (List.mem_cons_of_mem _ member)
      refine ⟨instrs :: parts, by rw [List.mapM_cons, generated, generated']; rfl, ?_⟩
      rw [List.flatten_cons, List.flatMap_cons]
      refine performs.append performs' fun move member => ?_
      obtain ⟨j, member, member'⟩ := List.mem_flatMap.mp member
      exact reads j (List.mem_cons_of_mem _ member) move member'

theorem run_of_copies (numbers : List Nat) {parts : List (List Instr)} {m m' : Machine}
    (generated : numbers.mapM (exceptionReturnCopy type h returningMap) = some parts)
    (done : run parts.flatten m = some m') :
    ∀ i ∈ numbers, ∃ instrs m₁ m₂, exceptionReturnCopy type h returningMap i = some instrs ∧
      run instrs m₁ = some m₂ := by
  induction numbers generalizing parts m with
  | nil => simp
  | cons i rest ih =>
      rw [List.mapM_cons] at generated
      obtain ⟨instrs, first, generated⟩ := Option.bind_eq_some_iff.mp generated
      obtain ⟨parts', others, same⟩ := Option.bind_eq_some_iff.mp generated
      cases same
      rw [List.flatten_cons, run_append] at done
      obtain ⟨m₁, ran, done⟩ := Option.bind_eq_some_iff.mp done
      intro j member
      rcases List.mem_cons.mp member with rfl | member
      · exact ⟨instrs, m, m₁, first, ran⟩
      · exact ih others done j member

theorem Carries.words {other : VarType} (carries : Carries type other orgReg newReg)
    {m m' : Machine} (copied : m'.words type newReg = m.words type orgReg) :
    m'.words other newReg = m.words other orgReg := by
  by_cases double : type = .double
  · subst double
    by_cases double' : other = .double
    · subst double'
      exact copied
    · have same : IsHW orgReg ↔ IsHW newReg := carries.straight.resolve_left fun width => by
        rw [VarType.width_single double', VarType.width_double rfl] at width
        cases width
      rw [Machine.words_single double', Machine.words_single double']
      rw [words_iff, wordMoves_double same] at copied
      rw [copied _ List.mem_cons_self]
  · have double' : other ≠ .double := fun double' => by
      have enough := carries.enough
      rw [VarType.width_single double, VarType.width_double double'] at enough
      omega
    rw [Machine.words_single double', Machine.words_single double']
    rwa [Machine.words_single double, Machine.words_single double] at copied

theorem Copyable.not_scratch (copyable : Copyable type orgReg newReg)
    (org : ¬ IsScratch orgReg) (new : ¬ IsScratch newReg) {move : Move Nat}
    (member : move ∈ wordMoves type orgReg newReg) :
    ¬ IsScratch move.source ∧ ¬ IsScratch move.target := by
  by_cases double : type = .double
  · subst double
    have high : 32 ≤ orgReg ∧ 32 ≤ newReg := by
      rcases copyable with slots | ⟨suits, suits'⟩
      · unfold regNumber at slots
        omega
      · have first := suits.1
        have second := suits'.1
        unfold IsFloat regNumber at first second
        omega
    have within := mem_wordMoves member
    unfold IsScratch g1 g2
    omega
  · rw [wordMoves_single double, List.mem_singleton] at member
    subst member
    exact ⟨org, new⟩

theorem Copyable.even_of_crossed (copyable : Copyable .double orgReg newReg)
    (crossed : ¬ (IsHW orgReg ↔ IsHW newReg)) : orgReg % 2 = 0 ∧ newReg % 2 = 0 := by
  rcases copyable with ⟨slot, slot'⟩ | ⟨suits, suits'⟩
  · exact absurd (iff_of_false (Nat.not_lt.mpr slot) (Nat.not_lt.mpr slot')) crossed
  · exact ⟨suits.2, suits'.2⟩

theorem Copyable.source_ne (copyable : Copyable type orgReg newReg) (moved : orgReg ≠ newReg)
    {move : Move Nat} (member : move ∈ wordMoves type orgReg newReg) :
    move.source ≠ move.target := by
  by_cases double : type = .double
  · subst double
    by_cases same : IsHW orgReg ↔ IsHW newReg
    · rw [wordMoves_double same] at member
      simp only [List.mem_cons, List.not_mem_nil, or_false] at member
      rcases member with rfl | rfl
      · exact moved
      · exact fun equal => moved (Nat.succ.inj equal)
    · have even := copyable.even_of_crossed same
      rw [wordMoves_crossed same] at member
      simp only [List.mem_cons, List.not_mem_nil, or_false] at member
      rcases member with rfl | rfl
      · dsimp only
        omega
      · dsimp only
        omega
  · rw [wordMoves_single double, List.mem_singleton] at member
    subst member
    exact moved

theorem Moving.mem (moving : Moving h returningMap i orgReg newReg)
    (allocated : h.Allocated numVars reserved)
    (allocated' : returningMap.Allocated numVars reserved') :
    (∃ v ∈ h.rmap orgReg, v.number = i) ∧ (∃ v ∈ returningMap.rmap newReg, v.number = i) ∧
      i < numVars := by
  obtain ⟨org, new, -⟩ := moving
  obtain ⟨v, member, number⟩ := (allocated.consistent.map _ _).mp org
  refine ⟨⟨v, member, number⟩, (allocated'.consistent.map _ _).mp new, ?_⟩
  have := allocated.consistent.numbered _ v member
  have := v.type.width_pos
  omega

section

variable (allocated : h.Allocated numVars reserved)
  (allocated' : returningMap.Allocated numVars reserved')

include allocated allocated'

theorem Moving.not_scratch (moving : Moving h returningMap i orgReg newReg)
    (copyable : Copyable type orgReg newReg) {move : Move Nat}
    (member : move ∈ wordMoves type orgReg newReg) :
    ¬ IsScratch move.source ∧ ¬ IsScratch move.target := by
  obtain ⟨⟨v, org, -⟩, ⟨w, new, -⟩, -⟩ := moving.mem allocated allocated'
  exact copyable.not_scratch (allocated.not_scratch org) (allocated'.not_scratch new) member

/-- The copies do their moves, if each of them can be made. -/
theorem performs_exceptionReturnCopies
    (present : ∀ newReg, ∀ v ∈ returningMap.rmap newReg, ∃ orgReg,
      ∃ w ∈ h.rmap orgReg, Alike v w)
    (copyable : ∀ i orgReg newReg, Moving h returningMap i orgReg newReg →
      Copyable type orgReg newReg) :
    ∃ instrs, exceptionReturnCopies numVars type h returningMap = some instrs ∧
      Performs instrs ((List.range numVars).flatMap (returnMoves type h returningMap)) := by
  have each (i : Nat) : ∃ instrs, exceptionReturnCopy type h returningMap i = some instrs ∧
      Performs instrs (returnMoves type h returningMap i) := by
    cases new : returningMap.map i with
    | none =>
        refine ⟨[], by rw [exceptionReturnCopy, new], ?_⟩
        have none_moved : returnMoves type h returningMap i = [] := by
          rw [returnMoves, new]
          cases h.map i <;> rfl
        rw [none_moved]
        exact .nil
    | some newReg =>
        obtain ⟨v, member, number⟩ := (allocated'.consistent.map _ _).mp new
        obtain ⟨orgReg, w, member', alike⟩ := present newReg v member
        have org : h.map i = some orgReg :=
          (allocated.consistent.map _ _).mpr ⟨w, member', alike.number.trans number⟩
        by_cases moved : orgReg = newReg
        · subst moved
          refine ⟨[], by rw [exceptionReturnCopy, new]; exact if_pos org, ?_⟩
          have none_moved : returnMoves type h returningMap i = [] := by
            rw [returnMoves, org, new]
            exact if_pos rfl
          rw [none_moved]
          exact .nil
        · have moving : Moving h returningMap i orgReg newReg := ⟨org, new, moved⟩
          rw [moving.copy_eq, moving.returnMoves_eq]
          exact performs_generateGeneralCopy (copyable i orgReg newReg moving)
  obtain ⟨parts, generated, performs⟩ := performs_copies type h returningMap (List.range numVars)
    (fun i _ => each i) fun i _ move member => by
      obtain ⟨orgReg, newReg, moving, member⟩ := moving_of_mem_returnMoves member
      exact (moving.not_scratch allocated allocated' (copyable i orgReg newReg moving) member).1
  exact ⟨parts.flatten, by rw [exceptionReturnCopies, generated]; rfl, performs⟩

theorem mem_moves {move : Move Nat} :
    move ∈ (List.range numVars).flatMap (returnMoves type h returningMap) ↔
      ∃ i orgReg newReg, Moving h returningMap i orgReg newReg ∧
        move ∈ wordMoves type orgReg newReg := by
  rw [List.mem_flatMap]
  constructor
  · rintro ⟨i, -, member⟩
    exact ⟨i, moving_of_mem_returnMoves member⟩
  · rintro ⟨i, orgReg, newReg, moving, member⟩
    refine ⟨i, List.mem_range.mpr (moving.mem allocated allocated').2.2, ?_⟩
    rwa [moving.returnMoves_eq]

theorem restores_of_restorable (restorable : Restorable numVars type h returningMap) :
    Restores numVars type h returningMap := by
  have carries {i orgReg newReg} (moving : Moving h returningMap i orgReg newReg) :
      ∃ v ∈ returningMap.rmap newReg, Carries type v.type orgReg newReg := by
    obtain ⟨org, new, moved⟩ := moving
    obtain ⟨v, member, number⟩ := (allocated'.consistent.map _ _).mp new
    obtain ⟨orgReg', ⟨w, member', alike⟩, carries⟩ := restorable.carried newReg v member
    have org' := (allocated.consistent.map _ _).mpr ⟨w, member', alike.number.trans number⟩
    obtain rfl : orgReg = orgReg' := Option.some.inj (org.symm.trans org')
    exact ⟨v, member, carries moved⟩
  obtain ⟨instrs, generated, performs⟩ := performs_exceptionReturnCopies allocated allocated'
    (fun newReg v member => (restorable.carried newReg v member).imp fun _ => And.left)
    fun i orgReg newReg moving =>
      have ⟨_, _, carries⟩ := carries moving
      carries.copyable
  refine ⟨instrs, generated, fun m => ?_⟩
  obtain ⟨m', done, places⟩ := performs m
  have simultaneous : Simultaneous Word _ _ := restorable.sequential.simultaneous
  obtain ⟨targets, stays⟩ := simultaneous m.place
  have copied {i orgReg newReg} (moving : Moving h returningMap i orgReg newReg) :
      m'.words type newReg = m.words type orgReg := by
    obtain ⟨v, member, carries⟩ := carries moving
    rw [words_iff]
    intro move inside
    rw [places _ (moving.not_scratch allocated allocated' carries.copyable inside).2]
    exact targets move ((mem_moves allocated allocated').mpr ⟨_, _, _, moving, inside⟩)
  refine ⟨m', done, fun i orgReg newReg => copied, ?_, ?_⟩
  · intro newReg v member
    obtain ⟨orgReg, ⟨w, member', alike⟩, carried⟩ := restorable.carried newReg v member
    refine ⟨orgReg, ⟨w, member', alike⟩, ?_⟩
    by_cases moved : orgReg = newReg
    · subst moved
      apply Machine.words_congr
      intro s low high
      rw [places s ((allocated.typed _ _ member').not_scratch
        (allocated.not_scratch member') low (alike.width ▸ high))]
      exact stays s ⟨orgReg, v, member, ⟨w, member', alike⟩, low, high⟩
    · exact (carried moved).words (copied
        ⟨(allocated.consistent.map _ _).mpr ⟨w, member', alike.number⟩,
        (allocated'.consistent.map _ _).mpr ⟨v, member, rfl⟩, moved⟩)
  · intro s kept outside
    rw [places s kept, performAll_of_not_target]
    intro move member same
    obtain ⟨i, orgReg, newReg, moving, inside⟩ := (mem_moves allocated allocated').mp member
    have := (mem_wordMoves inside).2
    have := outside i orgReg newReg moving
    omega

omit allocated' in
theorem Restores.contents (restores : Restores numVars type h returningMap)
    (contents : Nat → Word) :
    ∃ instrs m m', exceptionReturnCopies numVars type h returningMap = some instrs ∧
      m.place = contents ∧ run instrs m = some m' ∧
      (∀ i orgReg newReg, Moving h returningMap i orgReg newReg →
        ∀ move ∈ wordMoves type orgReg newReg, m'.place move.target = contents move.source) ∧
      ∀ newReg, ∀ v ∈ returningMap.rmap newReg, ∀ orgReg, h.map v.number = some orgReg →
        (∃ w ∈ h.rmap orgReg, Alike v w) ∧
        ∀ move ∈ wordMoves v.type orgReg newReg, m'.place move.target = contents move.source := by
  obtain ⟨instrs, generated, restores⟩ := restores
  obtain ⟨m, rfl⟩ := Machine.exists_place contents
  obtain ⟨m', done, copied, brought, -⟩ := restores m
  refine ⟨instrs, m, m', generated, rfl, done, fun i orgReg newReg moving =>
    (words_iff _ _ _ _ _).mp (copied i orgReg newReg moving), ?_⟩
  intro newReg v member orgReg org
  obtain ⟨orgReg', ⟨w, member', alike⟩, words⟩ := brought newReg v member
  have org' := (allocated.consistent.map _ _).mpr ⟨w, member', alike.number⟩
  obtain rfl : orgReg = orgReg' := Option.some.inj (org.symm.trans org')
  exact ⟨⟨w, member', alike⟩, (words_iff _ _ _ _ _).mp words⟩

theorem Restores.copyable (restores : Restores numVars type h returningMap)
    (moving : Moving h returningMap i orgReg newReg) : Copyable type orgReg newReg := by
  obtain ⟨instrs, m, m', generated, -, done, -⟩ := restores.contents allocated fun _ => 0
  obtain ⟨parts, emitted, rfl⟩ := Option.map_eq_some_iff.mp generated
  obtain ⟨-, ⟨v, member, rfl⟩, below⟩ := moving.mem allocated allocated'
  obtain ⟨instrs, m₁, m₂, copy, ran⟩ :=
    run_of_copies _ emitted done v.number (List.mem_range.mpr below)
  rw [moving.copy_eq] at copy
  refine copyable_of_run copy ran fun double slot hw => ?_
  subst double
  by_cases double : v.type = .double
  · obtain ⟨_, _, _, _, _, _, _, brought⟩ := restores.contents allocated fun _ => 0
    obtain ⟨w, member', alike⟩ := (brought newReg v member orgReg moving.1).1
    exact (allocated.typed _ _ member').even (alike.double double)
  · -- A single variable would come from both words of the frame.
    have crossed : ¬ (IsHW orgReg ↔ IsHW newReg) := fun same =>
      Nat.not_lt.mpr slot (same.mpr hw)
    have : orgReg = orgReg + 1 := eq_of_same Word fun contents => by
      obtain ⟨_, _, m', _, _, _, copied, brought⟩ := restores.contents allocated contents
      have first := copied _ _ _ moving
      have second := (brought newReg v member orgReg moving.1).2
      rw [wordMoves_crossed crossed] at first
      rw [wordMoves_single double] at second
      exact (second _ List.mem_cons_self).symm.trans
        (first _ (List.mem_cons_of_mem _ List.mem_cons_self))
    omega

omit allocated allocated' in
theorem Restores.present (restores : Restores numVars type h returningMap) :
    ∀ newReg, ∀ v ∈ returningMap.rmap newReg, ∃ orgReg, ∃ w ∈ h.rmap orgReg, Alike v w := by
  intro newReg v member
  obtain ⟨_, -, restores⟩ := restores
  obtain ⟨m, -⟩ := Machine.exists_place fun _ => 0
  obtain ⟨_, -, -, brought, -⟩ := restores m
  exact (brought newReg v member).imp fun _ => And.left

/-- The copies bring what they would bring at once. -/
theorem Restores.simultaneous (restores : Restores numVars type h returningMap) :
    Simultaneous Word ((List.range numVars).flatMap (returnMoves type h returningMap))
      (Staying h returningMap) ∧
    ∀ contents : Nat → Word, ∀ newReg, ∀ v ∈ returningMap.rmap newReg,
      ∀ orgReg, h.map v.number = some orgReg → ∀ move ∈ wordMoves v.type orgReg newReg,
      performAll ((List.range numVars).flatMap (returnMoves type h returningMap)) contents
        move.target = contents move.source := by
  obtain ⟨instrs, generated, performs⟩ := performs_exceptionReturnCopies allocated allocated'
    restores.present fun _ _ _ => restores.copyable allocated allocated'
  have brought (contents : Nat → Word) (newReg : Nat) (v : Var)
      (member : v ∈ returningMap.rmap newReg) (orgReg : Nat)
      (org : h.map v.number = some orgReg) (move : Move Nat)
      (inside : move ∈ wordMoves v.type orgReg newReg) :
      performAll ((List.range numVars).flatMap (returnMoves type h returningMap)) contents
        move.target = contents move.source := by
    obtain ⟨instrs', m, m', generated', rfl, done, -, brought⟩ :=
      restores.contents allocated contents
    cases generated.symm.trans generated'
    obtain ⟨m'', done', places⟩ := performs m
    cases done.symm.trans done'
    have within := (mem_wordMoves inside).2
    rw [← places _ ((allocated'.typed _ _ member).not_scratch (allocated'.not_scratch member)
      within.1 within.2)]
    exact (brought newReg v member orgReg org).2 move inside
  refine ⟨fun contents => ⟨fun move member => ?_, ?_⟩, brought⟩
  · obtain ⟨i, orgReg, newReg, moving, inside⟩ := (mem_moves allocated allocated').mp member
    obtain ⟨instrs', m, m', generated', rfl, done, copied, -⟩ :=
      restores.contents allocated contents
    cases generated.symm.trans generated'
    obtain ⟨m'', done', places⟩ := performs m
    cases done.symm.trans done'
    rw [← places _ (moving.not_scratch allocated allocated'
      (restores.copyable allocated allocated' moving) inside).2]
    exact copied i orgReg newReg moving move inside
  · rintro s ⟨r, v, member, ⟨w, member', alike⟩, low, high⟩
    have org := (allocated.consistent.map _ _).mpr ⟨w, member', alike.number⟩
    have inside : ⟨s, s⟩ ∈ wordMoves v.type r r := by
      by_cases double : v.type = .double
      · rw [double, wordMoves_double Iff.rfl]
        rw [VarType.width_double double] at high
        simp only [List.mem_cons, Move.mk.injEq, List.not_mem_nil, or_false]
        omega
      · rw [wordMoves_single double]
        rw [VarType.width_single double] at high
        simp only [List.mem_cons, Move.mk.injEq, List.not_mem_nil, or_false]
        omega
    exact brought contents r v member r org ⟨s, s⟩ inside

theorem Restores.sequential (restores : Restores numVars type h returningMap) :
    Sequential ((List.range numVars).flatMap (returnMoves type h returningMap))
      (Staying h returningMap) := by
  refine (simultaneous_iff fun move member => ?_).mp
    (restores.simultaneous allocated allocated').1
  obtain ⟨i, orgReg, newReg, moving, inside⟩ := (mem_moves allocated allocated').mp member
  exact (restores.copyable allocated allocated' moving).source_ne moving.2.2 inside

theorem Restores.carries (restores : Restores numVars type h returningMap)
    (member : v ∈ returningMap.rmap newReg) (member' : w ∈ h.rmap orgReg) (alike : Alike v w)
    (moved : orgReg ≠ newReg) : Carries type v.type orgReg newReg := by
  have org := (allocated.consistent.map _ _).mpr ⟨w, member', alike.number⟩
  have moving : Moving h returningMap v.number orgReg newReg :=
    ⟨org, (allocated'.consistent.map _ _).mpr ⟨v, member, rfl⟩, moved⟩
  obtain ⟨simultaneous, brought⟩ := restores.simultaneous allocated allocated'
  have targets (move : Move Nat) (inside : move ∈ wordMoves type orgReg newReg)
      (contents : Nat → Word) :=
    (simultaneous contents).1 move
      ((mem_moves allocated allocated').mpr ⟨_, _, _, moving, inside⟩)
  by_cases double : v.type = .double
  · have suits := (allocated.typed _ _ member').even (alike.double double)
    have suits' := (allocated'.typed _ _ member).even double
    by_cases double' : type = .double
    · exact ⟨restores.copyable allocated allocated' moving, by rw [double, double'],
        .inl (by rw [double, double'])⟩
    · -- No copy writes the second word, which then stays as it was.
      have unwritten (contents : Nat → Word) : performAll
          ((List.range numVars).flatMap (returnMoves type h returningMap)) contents
          (newReg + 1) = contents (newReg + 1) := by
        apply performAll_of_not_target
        intro move inside same
        obtain ⟨i, orgReg', newReg', moving', inside⟩ :=
          (mem_moves allocated allocated').mp inside
        obtain ⟨-, ⟨u, member'', -⟩, -⟩ := moving'.mem allocated allocated'
        have within := (mem_wordMoves inside).2
        have shared := allocated'.consistent.shared _ _ member _ _ member''
        unfold Apart at shared
        rw [VarType.width_double double] at shared
        rw [VarType.width_single double'] at within
        have := u.type.width_pos
        omega
      have second : ∃ source, source ≠ newReg + 1 ∧
          ⟨source, newReg + 1⟩ ∈ wordMoves v.type orgReg newReg := by
        rw [double]
        by_cases same : IsHW orgReg ↔ IsHW newReg
        · rw [wordMoves_double same]
          exact ⟨orgReg + 1, fun equal => moved (Nat.succ.inj equal),
            List.mem_cons_of_mem _ List.mem_cons_self⟩
        · rw [wordMoves_crossed same]
          exact ⟨orgReg, by omega, List.mem_cons_self⟩
      obtain ⟨source, different, inside⟩ := second
      exact absurd (eq_of_same Word fun contents =>
        (brought contents newReg v member orgReg org _ inside).symm.trans (unwritten contents))
        different
  · refine ⟨restores.copyable allocated allocated' moving, ?_, ?_⟩
    · rw [VarType.width_single double]
      exact type.width_pos
    · by_cases double' : type = .double
      · subst double'
        refine .inr (by_contra fun crossed => ?_)
        -- The place would get both words of the double.
        have first := targets ⟨orgReg + 1, newReg⟩ (by
          rw [wordMoves_crossed crossed]
          exact List.mem_cons_of_mem _ List.mem_cons_self)
        have : orgReg + 1 = orgReg := eq_of_same Word fun contents => by
          refine (first contents).symm.trans
            (brought contents newReg v member orgReg org ⟨orgReg, newReg⟩ ?_)
          rw [wordMoves_single double]
          exact List.mem_cons_self
        omega
      · left
        rw [VarType.width_single double, VarType.width_single double']

end

end

theorem restores_iff {numVars : Nat} {reserved reserved' : Nat → Bool}
    {h returningMap : AllocStat} {type : VarType} (allocated : h.Allocated numVars reserved)
    (allocated' : returningMap.Allocated numVars reserved') :
    Restores numVars type h returningMap ↔ Restorable numVars type h returningMap := by
  constructor
  · intro restores
    refine ⟨fun newReg v member => ?_, restores.sequential allocated allocated'⟩
    obtain ⟨orgReg, w, member', alike⟩ := restores.present newReg v member
    exact ⟨orgReg, ⟨w, member', alike⟩,
      restores.carries allocated allocated' member member' alike⟩
  · exact restores_of_restorable allocated allocated'

namespace AllocStat

/-- For any map that was recorded and any allocation at the exit of the handler: the recorded
places are in the handler's graph, and the copies bring every variable to its own. -/
theorem exceptionReturnCopies_restore_iff {numVars siteVars : Nat} {reserved : Nat → Bool}
    {h : AllocStat} {type : VarType} {info : TranslationInfo} {numLocals numStacks : Nat}
    (recorded : WellRecorded siteVars (callerVars info numLocals numStacks))
    (allocated : h.Allocated numVars reserved) :
    ((∀ p ∈ callerVars info numLocals numStacks, Recordable numVars p) ∧
        Restores numVars type h (makeExceptionReturnMap info numLocals numStacks)) ↔
      (∀ p ∈ callerVars info numLocals numStacks, Recordable numVars p) ∧
        Restorable numVars type h (makeExceptionReturnMap info numLocals numStacks) :=
  and_congr_right fun inside =>
    restores_iff allocated (makeExceptionReturnMap_allocated (recorded.within inside)).1

def localsIn (first second : Nat) : TranslationInfo where
  retMap i := if i = 0 then 2 ^ 28 + first else 2 ^ 28 + second
  callerLocalNO := 2
  callerStackNO := 0
  returnAddr := 0

def twoLocals : Nat := 2 + maxTempVar

theorem wellRecorded_locals {type : VarType} {first second : Nat} (single : type.width = 1)
    (suits : Suits type first ∧ IsInteger second) (range : first < 32 ∧ second < 32)
    (available : isAvailable first ∧ isAvailable second) (different : first ≠ second) :
    WellRecorded twoLocals [(⟨type, 0⟩, first), (⟨.int, 1⟩, second)] := by
  have positive {r : Nat} (available : isAvailable r) : 0 < r := by
    rcases Nat.eq_zero_or_pos r with rfl | positive
    · cases available
    · exact positive
  have width : VarType.int.width = 1 := rfl
  refine ⟨fun p member => ?_, ?_⟩
  · simp only [List.mem_cons, List.not_mem_nil, or_false] at member
    rcases member with rfl | rfl
    · refine ⟨⟨positive available.1, ?_⟩, ?_, suits.1, available.1⟩
      · rw [single, regNumber]
        dsimp only
        omega
      · rw [single]
        exact (by decide : 0 + 1 ≤ twoLocals)
    · refine ⟨⟨positive available.2, ?_⟩, (by decide : 1 + 1 ≤ twoLocals), .inl suits.2,
        available.2⟩
      rw [width, regNumber]
      dsimp only
      omega
  · refine List.pairwise_pair.mpr ⟨.inl (by rw [single]), .inl ?_⟩
    unfold Apart
    rw [single, width]
    dsimp only
    omega

/-- At the exit the first local is held as the second half of a long. -/
theorem exceptionReturnCopies_restore_iff_locals :
    ((∀ p ∈ callerVars (localsIn 17 18) 2 0, Recordable twoLocals p) ∧
        Restores twoLocals .int (init.insertAll [(⟨.ivoid, 0⟩, 16), (⟨.int, 1⟩, 17)])
          (makeExceptionReturnMap (localsIn 17 18) 2 0)) ↔
      (∀ p ∈ callerVars (localsIn 17 18) 2 0, Recordable twoLocals p) ∧
        Restorable twoLocals .int (init.insertAll [(⟨.ivoid, 0⟩, 16), (⟨.int, 1⟩, 17)])
          (makeExceptionReturnMap (localsIn 17 18) 2 0) :=
  have recorded : WellRecorded twoLocals (callerVars (localsIn 17 18) 2 0) :=
    wellRecorded_locals rfl (by decide) (by decide) (by decide) (by decide)
  have recorded' : WellRecorded twoLocals [(⟨.ivoid, 0⟩, 16), (⟨.int, 1⟩, 17)] :=
    wellRecorded_locals rfl (by decide) (by decide) (by decide) (by decide)
  exceptionReturnCopies_restore_iff recorded (allocated_init.insertAll recorded' nofun).1

/-- Two variables that have changed places at the exit both end up with the same word. -/
theorem exceptionReturnCopies_lose_a_swap :
    WellRecorded twoLocals (callerVars (localsIn 17 16) 2 0) ∧
      (init.insertAll [(⟨.int, 0⟩, 16), (⟨.int, 1⟩, 17)]).Allocated twoLocals (fun _ => false) ∧
      ¬ Restores twoLocals .int (init.insertAll [(⟨.int, 0⟩, 16), (⟨.int, 1⟩, 17)])
        (makeExceptionReturnMap (localsIn 17 16) 2 0) := by
  have recorded : WellRecorded twoLocals (callerVars (localsIn 17 16) 2 0) :=
    wellRecorded_locals rfl (by decide) (by decide) (by decide) (by decide)
  have recorded' : WellRecorded twoLocals [(⟨.int, 0⟩, 16), (⟨.int, 1⟩, 17)] :=
    wellRecorded_locals rfl (by decide) (by decide) (by decide) (by decide)
  have allocated := (allocated_init.insertAll recorded' nofun).1
  refine ⟨recorded, allocated, fun restores => ?_⟩
  have restorable :=
    (restores_iff allocated (makeExceptionReturnMap_allocated recorded).1).mp restores
  exact absurd restorable.sequential.ordered (by decide)

end AllocStat

end LaTTe.Registers
