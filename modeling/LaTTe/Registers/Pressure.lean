import LaTTe.Registers.Moves
import LaTTe.Registers.Spill
import Mathlib.Data.List.Find

namespace LaTTe.Registers

/-! Making a register free. -/

def isAvailable (r : Nat) : Bool :=
  !(r < 8 || r = 14 || r = 15 || r = 30 || r = 31)

namespace AllocStat

/-- Spill what is in the register; `none` where there is nothing or no spill register. -/
def spillRegister (numVars : Nat) (h : AllocStat) (fromR : Nat) :
    Option (AllocStat × List Instr) := do
  let v ← h.findRMap fromR 0
  let toR ← findFreeSpill numVars h v.type
  let h ← h.changeReg fromR toR
  let instrs ← generateSpill v.type fromR toR
  some (h, instrs)

inductive Source where
  | reg (r : Nat)
  | var (v : Var)
  deriving DecidableEq, Repr

abbrev Named (sources : List Source) (r : Nat) : Prop := .reg r ∈ sources

def spillNonSrcRegister (numVars : Nat) (h : AllocStat) (sources : List Source)
    (type : VarType) : Option (AllocStat × List Instr × Nat) :=
  match type with
  | .int | .ref | .long | .ivoid =>
      match (List.range' 1 31).find? fun r =>
        0 < h.refcount r ∧ isAvailable r ∧ ¬ Named sources r with
      | some r => (spillRegister numVars h r).map fun (h, instrs) => (h, instrs, r)
      | none => some (h, [], 32)
  | .float =>
      match (List.range' 32 32).find? fun r => ¬ Named sources r with
      | some r => (spillRegister numVars h r).map fun (h, instrs) => (h, instrs, r)
      | none => some (h, [], 64)
  | .double =>
      match (List.range' 32 16 2).find? fun r =>
        ¬ (Named sources r ∨ Named sources (r + 1)) with
      | some r => (spillRegister numVars h r).bind fun (h, instrs) =>
          if 0 < h.refcount (r + 1) then
            (spillRegister numVars h (r + 1)).map fun (h, instrs') => (h, instrs ++ instrs', r)
          else some (h, instrs, r)
      | none => some (h, [], 64)
  | .cc | .fvoid => none

/-! What it is for. -/

def Typed (h : AllocStat) : Prop := ∀ r, ∀ v ∈ h.rmap r, Suits v.type r

def Saves (h : AllocStat) (instrs : List Instr) (h' : AllocStat) : Prop :=
  ∀ m, ∃ m', run instrs m = some m' ∧ ∀ r, ∀ v ∈ h.rmap r, ∃ r', v ∈ h'.rmap r' ∧
    (r' = r ∨ regNumber ≤ r') ∧ m'.words v.type r' = m.words v.type r

section

variable {numVars : Nat} {reserved : Nat → Bool} {h h' : AllocStat} {v : Var} {r : Nat}
  {instrs : List Instr}

theorem Saves.trans {h'' : AllocStat} {instrs' : List Instr}
    (saves : Saves h instrs h') (saves' : Saves h' instrs' h'') :
    Saves h (instrs ++ instrs') h'' := by
  intro m
  obtain ⟨m', first, kept⟩ := saves m
  obtain ⟨m'', second, kept'⟩ := saves' m'
  refine ⟨m'', ?_, fun r v member => ?_⟩
  · rw [run, List.foldlM_append]
    change (run instrs m).bind _ = _
    rw [first]
    exact second
  · obtain ⟨r', member', place, words⟩ := kept r v member
    obtain ⟨r'', member'', place', words'⟩ := kept' r' v member'
    refine ⟨r'', member'', ?_, words'.trans words⟩
    rcases place' with rfl | slot
    · exact place
    · exact .inr slot

theorem Consistent.findRMap_zero (consistent : Consistent numVars reserved h)
    (member : v ∈ h.rmap r) : ∃ w ∈ h.rmap r, h.findRMap r 0 = some w := by
  have counted := consistent.refcount_of_mem member
  cases vars : h.rmap r with
  | nil =>
      rw [vars] at member
      cases member
  | cons w rest =>
      refine ⟨w, List.mem_cons_self, ?_⟩
      rw [vars, List.length_cons] at counted
      rw [findRMap, counted, vars]
      cases rest with
      | nil => rfl
      | cons _ _ => rfl

theorem mem_of_findRMap {cnt : Nat} (found : h.findRMap r cnt = some v) : v ∈ h.rmap r := by
  unfold findRMap at found
  split at found
  · cases found
  · exact List.mem_of_mem_head? found
  · exact List.mem_of_getElem? found

theorem Consistent.not_spilled (consistent : Consistent numVars reserved h)
    (member : v ∈ h.rmap r) (hw : r + v.type.width ≤ regNumber) :
    ∀ i < v.type.width, ¬ h.Spilled (v.number + i) := by
  rintro i small ⟨r', w, member', j, inside, number, slot⟩
  have same : v.number = w.number := by
    by_contra different
    have apart := consistent.apart r v member r' w member' different
    unfold Apart at apart
    omega
  obtain ⟨rfl, rfl⟩ := consistent.unique member member' same
  omega

theorem freePair_of_found (consistent : Consistent numVars reserved h)
    (allowed : ∀ s, regNumber ≤ s → reserved s = false) {toR : Nat}
    (found : findFreeSpill numVars h .double = some toR) :
    ∃ k, 2 * k + 2 ≤ numVars ∧ h.FreePair k := by
  rw [findFreeSpill_double] at found
  have free := List.find?_some found
  obtain ⟨k, below, rfl⟩ := List.mem_range'.mp (List.mem_of_find?_eq_some found)
  rw [decide_eq_true_eq] at free
  exact ⟨k, by omega, (freePair_iff consistent allowed k).mpr free⟩

theorem FreeSlot.suits {type : VarType} {toR : Nat} (slot : FreeSlot numVars h type toR)
    (known : type ≠ .cc) (known' : type ≠ .fvoid) : Suits type toR := by
  have low := slot.inRange.1
  cases type with
  | int => exact .inr low
  | long => exact .inr low
  | ref => exact .inr low
  | ivoid => exact .inr low
  | float => exact .inr low
  | double =>
      refine ⟨.inr low, ?_⟩
      have aligned := slot.aligned rfl
      unfold getSpillOffset at aligned
      unfold regNumber at *
      omega
  | cc => exact absurd rfl known
  | fvoid => exact absurd rfl known'

structure Spills (numVars : Nat) (reserved : Nat → Bool) (h : AllocStat) (r : Nat)
    (h' : AllocStat) (instrs : List Instr) : Prop where
  consistent : Consistent numVars reserved h'
  typed : h'.Typed
  mem_iff : ∃ toR, regNumber ≤ toR ∧ ∀ x s, x ∈ h'.rmap s ↔
    s ≠ r ∧ x ∈ h.rmap s ∨ s = toR ∧ x ∈ h.rmap r
  saves : Saves h instrs h'

theorem spillRegister_spec (consistent : Consistent numVars reserved h) (typed : h.Typed)
    (allowed : ∀ s, regNumber ≤ s → reserved s = false) (hw : IsHW r) (member : v ∈ h.rmap r)
    (pair : v.type = .double → ∃ k, 2 * k + 2 ≤ numVars ∧ h.FreePair k) :
    ∃ h' instrs, spillRegister numVars h r = some (h', instrs) ∧
      Spills numVars reserved h r h' instrs := by
  obtain ⟨t, head, first⟩ := consistent.findRMap_zero member
  have width := consistent.width_eq head member
  have suits := typed r t head
  have below := suits.below hw
  have known := suits.known
  obtain ⟨toR, found⟩ := (consistent.findFreeSpill_isSome allowed
    (consistent.numbered r t head) (consistent.not_spilled head below)).mpr
    ⟨known.1, fun double => pair (by rwa [VarType.double_iff, ← width, ← VarType.double_iff])⟩
  have slot := freeSlot_of_found found
  have suits' := slot.suits known.1 known.2
  have low := slot.inRange.1
  have even := suits'.even
  have movable : Movable numVars h t r toR := by
    refine ⟨head, ⟨Nat.lt_of_lt_of_le (by decide) low, slot.inRange.2⟩,
      slot.free 0 t.type.width_pos, fun double => slot.free 1 ?_⟩
    rw [VarType.width_double double]
    decide
  have changed := changeReg_eq consistent movable
  obtain ⟨h', changedEq⟩ : ∃ h', h.changeReg r toR = some h' := ⟨_, changed⟩
  obtain ⟨instrs, spill, brings⟩ := brings_generateSpill hw low suits suits'
  have members := fun x s => mem_changeReg consistent movable changedEq (x := x) (s := s)
  refine ⟨h', instrs, ?_, consistent.changeReg movable changedEq, ?_, ⟨toR, low, members⟩, ?_⟩
  · simp [spillRegister, first, found, changedEq, spill]
  · intro s x inside
    rcases (members x s).mp inside with ⟨_, old⟩ | ⟨rfl, old⟩
    · exact typed s x old
    · exact (typed r x old).slot low even (consistent.width_eq head old)
  · intro m
    obtain ⟨m', ran, words, others⟩ := brings m
    refine ⟨m', ran, fun s x inside => ?_⟩
    by_cases here : s = r
    · subst here
      refine ⟨toR, (members x toR).mpr (.inr ⟨rfl, inside⟩), .inr low, ?_⟩
      have same := consistent.width_eq head inside
      have kind : t.type = .double ↔ x.type = .double := by
        rw [VarType.double_iff, VarType.double_iff, same]
      unfold Machine.words at words ⊢
      simp only [kind] at words
      exact words
    · refine ⟨s, (members x s).mpr (.inl ⟨here, inside⟩), .inl rfl, ?_⟩
      apply Machine.words_congr
      intro place above below'
      refine others place ?_ id
      by_contra inSlot
      rw [not_or, Nat.not_lt, Nat.not_le] at inSlot
      have free := slot.free (place - toR) (by omega)
      rw [Nat.add_sub_cancel' inSlot.1] at free
      refine (consistent.refcount_ne_zero_iff (allowed _ (Nat.le_trans low inSlot.1))).mpr
        ⟨s, x, inside, above, below'⟩ free

theorem Spills.not_mem (spills : Spills numVars reserved h r h' instrs) (hw : IsHW r) {x : Var} :
    x ∉ h'.rmap r := by
  obtain ⟨toR, slot, members⟩ := spills.mem_iff
  intro member
  rcases (members x r).mp member with ⟨away, _⟩ | ⟨rfl, _⟩
  · exact away rfl
  · exact absurd hw (Nat.not_lt.mpr slot)

theorem Spills.mem_other (spills : Spills numVars reserved h r h' instrs) {s : Nat}
    (hw : IsHW s) (other : s ≠ r) {x : Var} : x ∈ h'.rmap s ↔ x ∈ h.rmap s := by
  obtain ⟨toR, slot, members⟩ := spills.mem_iff
  rw [members]
  constructor
  · rintro (⟨_, member⟩ | ⟨rfl, _⟩)
    · exact member
    · exact absurd hw (Nat.not_lt.mpr slot)
  · exact fun member => .inl ⟨other, member⟩

theorem Spills.mem_slot (spills : Spills numVars reserved h r h' instrs) {s : Nat} {x : Var}
    (member : x ∈ h.rmap s) (away : x ∉ h'.rmap s) : s = r := by
  obtain ⟨toR, slot, members⟩ := spills.mem_iff
  by_contra other
  exact away ((members x s).mpr (.inl ⟨other, member⟩))

theorem Spills.refcount (spills : Spills numVars reserved h r h' instrs) (hw : IsHW r)
    (typed : h.Typed) (member : v ∈ h.rmap r) (consistent : Consistent numVars reserved h) :
    ∀ i < v.type.width, h'.refcount (r + i) = 0 := by
  intro i small
  have below := (typed r v member).below hw
  have clear : ∀ s, ∀ w ∈ h'.rmap s, ¬ (s ≤ r + i ∧ r + i < s + w.type.width) := by
    intro s w inside overlap
    by_cases slot : regNumber ≤ s
    · omega
    · have away : s ≠ r := by
        rintro rfl
        exact spills.not_mem hw inside
      have old := (spills.mem_other (Nat.not_le.mp slot) away).mp inside
      rcases consistent.shared r v member s w old with (apart | apart) | ⟨same, _⟩ <;> omega
  have alone := consistent.unreserved r v member
  have unreserved : reserved (r + i) = false := by
    by_cases first : i = 0
    · subst first
      exact alone.1
    · obtain rfl : i = 1 := by
        unfold VarType.width at small
        split at small <;> omega
      refine alone.2 ?_
      by_contra single
      rw [VarType.width_single single] at small
      omega
  by_contra occupied
  obtain ⟨s, w, inside, low, high⟩ :=
    (spills.consistent.refcount_ne_zero_iff unreserved).mp occupied
  exact clear s w inside ⟨low, high⟩

end

/-! Registers of a class. -/

/-- The registers that can hold a variable of the type. -/
def InClass (type : VarType) (r : Nat) : Prop :=
  match type with
  | .int | .ref | .long | .ivoid => IsInteger r ∧ isAvailable r = true
  | .float => IsFloat r
  | .double => IsPair r
  | .cc | .fvoid => False

instance (type : VarType) (r : Nat) : Decidable (InClass type r) := by
  unfold InClass
  split <;> infer_instance

def Holds (h : AllocStat) (sources : List Source) (r : Nat) : Prop :=
  ∃ w ∈ h.rmap r, (∃ s, r ≤ s ∧ s < r + w.type.width ∧ Named sources s) ∨
    ∃ v, .var v ∈ sources ∧ v.number = w.number

def candidate (sources : List Source) : VarType → Option Nat
  | .int | .ref | .long | .ivoid =>
      (List.range' 1 31).find? fun r => isAvailable r ∧ ¬ Named sources r
  | .float => (List.range' 32 32).find? fun r => ¬ Named sources r
  | .double =>
      (List.range' 32 16 2).find? fun r => ¬ (Named sources r ∨ Named sources (r + 1))
  | .cc | .fvoid => none

structure Relieved (h : AllocStat) (sources : List Source) (type : VarType) (h' : AllocStat)
    (instrs : List Instr) (r : Nat) : Prop where
  inClass : InClass type r
  free : ∀ i < type.width, h'.refcount (r + i) = 0
  whole : ∀ s, ∀ w ∈ h.rmap s, w ∉ h'.rmap s → ¬ Holds h sources s
  saves : Saves h instrs h'

section

variable {numVars : Nat} {reserved : Nat → Bool} {h : AllocStat} {sources : List Source}
  {type : VarType}

theorem inClass_candidate {r : Nat} (found : candidate sources type = some r) :
    InClass type r := by
  have integer : ∀ {p : Nat → Bool}, (List.range' 1 31).find? p = some r → IsInteger r := by
    intro p found
    have := List.mem_range'_1.mp (List.mem_of_find?_eq_some found)
    unfold IsInteger
    omega
  have available : (List.range' 1 31).find? (fun r => isAvailable r ∧ ¬ Named sources r) = some r →
      IsInteger r ∧ isAvailable r = true := by
    intro found
    have chosen := List.find?_some found
    rw [decide_eq_true_eq] at chosen
    exact ⟨integer found, chosen.1⟩
  cases type with
  | int => exact available found
  | long => exact available found
  | ref => exact available found
  | ivoid => exact available found
  | float =>
      have := List.mem_range'_1.mp (List.mem_of_find?_eq_some found)
      exact ⟨this.1, this.2⟩
  | double =>
      obtain ⟨k, below, rfl⟩ := List.mem_range'.mp (List.mem_of_find?_eq_some found)
      unfold InClass IsPair IsFloat
      omega
  | cc => cases found
  | fvoid => cases found

def Spillable (numVars : Nat) (h : AllocStat) (r : Nat) : Prop :=
  ∃ v ∈ h.rmap r, v.type = .double → ∃ k, 2 * k + 2 ≤ numVars ∧ h.FreePair k

theorem spillable_of_spilled (consistent : Consistent numVars reserved h)
    (allowed : ∀ s, regNumber ≤ s → reserved s = false) {r : Nat}
    {result : AllocStat × List Instr} (spilled : spillRegister numVars h r = some result) :
    Spillable numVars h r := by
  obtain ⟨v, first, rest⟩ := Option.bind_eq_some_iff.mp spilled
  obtain ⟨toR, found, _⟩ := Option.bind_eq_some_iff.mp rest
  refine ⟨v, mem_of_findRMap first, fun double => ?_⟩
  rw [double] at found
  exact freePair_of_found consistent allowed found

theorem spillRegister_iff (consistent : Consistent numVars reserved h) (typed : h.Typed)
    (allowed : ∀ s, regNumber ≤ s → reserved s = false) {r : Nat} (hw : IsHW r) {h' : AllocStat}
    {instrs : List Instr} (spilled : spillRegister numVars h r = some (h', instrs)) :
    Spills numVars reserved h r h' instrs := by
  obtain ⟨v, member, pair⟩ := spillable_of_spilled consistent allowed spilled
  obtain ⟨h'', instrs', spilled', spills⟩ :=
    spillRegister_spec consistent typed allowed hw member pair
  cases spilled.symm.trans spilled'
  exact spills

theorem relieved_single_iff (consistent : Consistent numVars reserved h) (typed : h.Typed)
    (allowed : ∀ s, regNumber ≤ s → reserved s = false) {r : Nat} (hw : IsHW r)
    (inClass : InClass type r) (single : type ≠ .double) :
    (∃ h' instrs r', ((spillRegister numVars h r).map fun (h, instrs) => (h, instrs, r)) =
        some (h', instrs, r') ∧ Relieved h sources type h' instrs r') ↔
      Spillable numVars h r ∧ ¬ Holds h sources r := by
  constructor
  · rintro ⟨h', instrs, r', run, relieved⟩
    obtain ⟨⟨h'', instrs'⟩, spilled, same⟩ := Option.map_eq_some_iff.mp run
    cases same
    have spillable := spillable_of_spilled consistent allowed spilled
    have spills := spillRegister_iff consistent typed allowed hw spilled
    obtain ⟨v, member, _⟩ := id spillable
    exact ⟨spillable, relieved.whole r v member (spills.not_mem hw)⟩
  · rintro ⟨⟨v, member, pair⟩, vacant⟩
    obtain ⟨h', instrs, spilled, spills⟩ :=
      spillRegister_spec consistent typed allowed hw member pair
    refine ⟨h', instrs, r, by rw [spilled]; rfl, inClass, ?_, ?_, spills.saves⟩
    · intro i small
      rw [VarType.width_single single] at small
      exact spills.refcount hw typed member consistent i
        (Nat.lt_of_lt_of_le small v.type.width_pos)
    · intro s w inside away
      obtain rfl := spills.mem_slot inside away
      exact vacant

theorem relieved_double_iff (consistent : Consistent numVars reserved h) (typed : h.Typed)
    (allowed : ∀ s, regNumber ≤ s → reserved s = false) {r : Nat} (inClass : IsPair r)
    (unreserved : reserved (r + 1) = false) :
    (∃ h' instrs r', ((spillRegister numVars h r).bind fun (h, instrs) =>
          if 0 < h.refcount (r + 1) then
            (spillRegister numVars h (r + 1)).map fun (h, instrs') => (h, instrs ++ instrs', r)
          else some (h, instrs, r)) = some (h', instrs, r') ∧
        Relieved h sources .double h' instrs r') ↔
      Spillable numVars h r ∧ ¬ Holds h sources r ∧ ¬ Holds h sources (r + 1) := by
  have hw : IsHW r ∧ IsHW (r + 1) := by
    unfold IsPair IsFloat at inClass
    unfold IsHW regNumber
    omega
  obtain ⟨hw, hw'⟩ := hw
  have different : r + 1 ≠ r := by omega
  -- what the second register holds after the first one is spilled
  have second : ∀ {h1 : AllocStat} {instrs : List Instr},
      Spills numVars reserved h r h1 instrs → h1.refcount (r + 1) ≠ 0 →
        ∃ w ∈ h1.rmap (r + 1), w.type ≠ .double := by
    intro h1 instrs spills occupied
    obtain ⟨s, w, member, low, high⟩ :=
      (spills.consistent.refcount_ne_zero_iff unreserved).mp occupied
    have narrow : w.type.width ≤ 2 := by
      unfold VarType.width
      split <;> decide
    by_cases here : s = r + 1
    · subst here
      refine ⟨w, member, fun double => ?_⟩
      have even := (spills.typed _ w member).even double
      have even' := inClass.2
      omega
    · obtain rfl : s = r := by omega
      exact absurd member (spills.not_mem hw)
  constructor
  · rintro ⟨h', instrs, r', run, relieved⟩
    obtain ⟨⟨h1, instrs1⟩, spilled, rest⟩ := Option.bind_eq_some_iff.mp run
    have spillable := spillable_of_spilled consistent allowed spilled
    have spills := spillRegister_iff consistent typed allowed hw spilled
    obtain ⟨v, member, _⟩ := id spillable
    dsimp only at rest
    split at rest
    · obtain ⟨⟨h2, instrs2⟩, spilled', same⟩ := Option.map_eq_some_iff.mp rest
      cases same
      have spills' := spillRegister_iff spills.consistent spills.typed allowed hw' spilled'
      refine ⟨spillable, relieved.whole r v member ?_, ?_⟩
      · rw [spills'.mem_other hw different.symm]
        exact spills.not_mem hw
      · rintro ⟨w, inside, held⟩
        exact relieved.whole (r + 1) w inside (spills'.not_mem hw') ⟨w, inside, held⟩
    · rename_i free
      cases rest
      refine ⟨spillable, relieved.whole r v member (spills.not_mem hw), ?_⟩
      rintro ⟨w, inside, _⟩
      have here := (spills.mem_other hw' different).mpr inside
      have counted := spills.consistent.refcount_of_mem here
      have positive := List.length_pos_of_mem here
      omega
  · rintro ⟨⟨v, member, pair⟩, vacant, vacant'⟩
    obtain ⟨h1, instrs1, spilled, spills⟩ :=
      spillRegister_spec consistent typed allowed hw member pair
    have free := spills.refcount hw typed member consistent 0 v.type.width_pos
    rw [spilled, Option.bind_some]
    dsimp only
    by_cases occupied : 0 < h1.refcount (r + 1)
    · obtain ⟨w, inside, single⟩ := second spills (by omega)
      obtain ⟨h2, instrs2, spilled', spills'⟩ := spillRegister_spec spills.consistent
        spills.typed allowed hw' inside (fun double => absurd double single)
      refine ⟨h2, instrs1 ++ instrs2, r, by rw [if_pos occupied, spilled']; rfl, inClass,
        ?_, ?_, spills.saves.trans spills'.saves⟩
      · intro i small
        rw [VarType.width_double rfl] at small
        obtain rfl | rfl : i = 0 ∨ i = 1 := by omega
        · by_contra taken
          obtain ⟨s, x, placed, low, high⟩ := (spills'.consistent.refcount_ne_zero_iff
            (consistent.unreserved r v member).1).mp taken
          have old := (spills'.mem_other (Nat.lt_of_le_of_lt low hw) (by omega)).mp placed
          exact (spills.consistent.refcount_ne_zero_iff
            (consistent.unreserved r v member).1).mpr ⟨s, x, old, low, high⟩ free
        · exact spills'.refcount hw' spills.typed inside spills.consistent 0 w.type.width_pos
      · intro s x placed away
        by_cases first : x ∈ h1.rmap s
        · obtain rfl := spills'.mem_slot first away
          exact vacant'
        · obtain rfl := spills.mem_slot placed first
          exact vacant
    · refine ⟨h1, instrs1, r, if_neg occupied, inClass, ?_, ?_, spills.saves⟩
      · intro i small
        rw [VarType.width_double rfl] at small
        obtain rfl | rfl : i = 0 ∨ i = 1 := by omega
        · exact free
        · omega
      · intro s x placed away
        obtain rfl := spills.mem_slot placed away
        exact vacant

variable (type) in
/-- One register is spilled, or the loop ends behind the class. -/
theorem relieved_found_iff (consistent : Consistent numVars reserved h) (typed : h.Typed)
    (allowed : ∀ s, regNumber ≤ s → reserved s = false) (single : type ≠ .double)
    {chosen : Option Nat} (same : chosen = candidate sources type) {last : Nat}
    (behind : ¬ InClass type last) :
    (∃ h' instrs r', (match chosen with
        | some r => (spillRegister numVars h r).map fun (h, instrs) => (h, instrs, r)
        | none => some (h, [], last)) = some (h', instrs, r') ∧
        Relieved h sources type h' instrs r') ↔
      ∃ r, candidate sources type = some r ∧ Spillable numVars h r ∧ ¬ Holds h sources r ∧
        (type = .double → ¬ Holds h sources (r + 1)) := by
  rw [← same]
  cases chosen with
  | none =>
      constructor
      · rintro ⟨h', instrs, r', run, relieved⟩
        cases run
        exact absurd relieved.inClass behind
      · rintro ⟨r, found, _⟩
        cases found
  | some r =>
      have inClass := inClass_candidate same.symm
      have hw : IsHW r := by
        cases type with
        | int => exact Nat.lt_trans inClass.1 (by decide)
        | long => exact Nat.lt_trans inClass.1 (by decide)
        | ref => exact Nat.lt_trans inClass.1 (by decide)
        | ivoid => exact Nat.lt_trans inClass.1 (by decide)
        | float => exact Nat.lt_trans inClass.2 (by decide)
        | double => exact absurd rfl single
        | cc => exact absurd inClass id
        | fvoid => exact absurd inClass id
      rw [relieved_single_iff consistent typed allowed hw inClass single]
      constructor
      · rintro ⟨spillable, vacant⟩
        exact ⟨r, rfl, spillable, vacant, fun double => absurd double single⟩
      · rintro ⟨r', found, spillable, vacant, _⟩
        cases found
        exact ⟨spillable, vacant⟩

theorem find?_full (full : ((List.range' 16 8 ++ List.range' 24 6 ++ List.range' 8 6).find?
      fun r => h.refcount r = 0) = none) :
    ((List.range' 1 31).find? fun r => 0 < h.refcount r ∧ isAvailable r ∧ ¬ Named sources r) =
      (List.range' 1 31).find? fun r => isAvailable r ∧ ¬ Named sources r := by
  have occupied : ∀ r ∈ List.range' 1 31, isAvailable r = true → 0 < h.refcount r := by
    intro r inRange available
    have member : r ∈ List.range' 16 8 ++ List.range' 24 6 ++ List.range' 8 6 := by
      have := List.mem_range'_1.mp inRange
      simp only [isAvailable, Bool.not_eq_true', Bool.or_eq_false_iff, decide_eq_false_iff_not]
        at available
      simp only [List.mem_append, List.mem_range'_1]
      omega
    have := List.find?_eq_none.mp full r member
    rw [decide_eq_true_eq] at this
    omega
  refine List.find?_congr fun r inRange => ?_
  have := occupied r inRange
  rw [decide_eq_decide]
  exact ⟨fun chosen => chosen.2, fun chosen => ⟨this chosen.1, chosen⟩⟩

end

/-- With no register of the class free, `RegAlloc_spill_non_src_register` relieves the pressure
exactly when the first register that no source names is the start of a place without sources,
and a double there finds a pair of slots. -/
theorem spillNonSrcRegister_relieves_iff (numVars : Nat) (reserved : Nat → Bool) (h : AllocStat)
    (consistent : Consistent numVars reserved h) (typed : h.Typed)
    (allowed : ∀ r, reserved r = true → IsHW r ∧ isAvailable r = false)
    (sources : List Source) (type : VarType) (known : type ≠ .cc ∧ type ≠ .fvoid)
    (full : findFreeReg h type = none) :
    (∃ h' instrs r, spillNonSrcRegister numVars h sources type = some (h', instrs, r) ∧
        Relieved h sources type h' instrs r) ↔
      ∃ r, candidate sources type = some r ∧ Spillable numVars h r ∧ ¬ Holds h sources r ∧
        (type = .double → ¬ Holds h sources (r + 1)) := by
  have slots : ∀ s, regNumber ≤ s → reserved s = false := by
    intro s slot
    cases isReserved : reserved s with
    | false => rfl
    | true => exact absurd (allowed s isReserved).1 (Nat.not_lt.mpr slot)
  cases type with
  | int => exact relieved_found_iff .int consistent typed slots nofun (find?_full full) (by decide)
  | long => exact relieved_found_iff .long consistent typed slots nofun (find?_full full) (by decide)
  | ref => exact relieved_found_iff .ref consistent typed slots nofun (find?_full full) (by decide)
  | ivoid => exact relieved_found_iff .ivoid consistent typed slots nofun (find?_full full) (by decide)
  | float => exact relieved_found_iff .float consistent typed slots nofun rfl (by decide)
  | cc => exact absurd rfl known.1
  | fvoid => exact absurd rfl known.2
  | double =>
      rw [spillNonSrcRegister]
      cases found : candidate sources .double with
      | none =>
          rw [candidate] at found
          rw [found]
          constructor
          · rintro ⟨h', instrs, r, run, relieved⟩
            cases run
            exact absurd relieved.inClass (by decide)
          · rintro ⟨r, chosen, _⟩
            cases chosen
      | some r =>
          have inClass := inClass_candidate found
          rw [candidate] at found
          rw [found]
          have unreserved : reserved (r + 1) = false := by
            cases isReserved : reserved (r + 1) with
            | false => rfl
            | true =>
                have unavailable := (allowed _ isReserved).2
                obtain ⟨⟨low, high⟩, _⟩ := inClass
                simp only [isAvailable, Bool.not_eq_false', Bool.or_eq_true,
                  decide_eq_true_eq] at unavailable
                omega
          dsimp only
          rw [relieved_double_iff consistent typed slots inClass unreserved]
          constructor
          · rintro ⟨spillable, vacant, vacant'⟩
            exact ⟨r, rfl, spillable, vacant, fun _ => vacant'⟩
          · rintro ⟨r', chosen, spillable, vacant, vacant'⟩
            cases chosen
            exact ⟨spillable, vacant, vacant' rfl⟩

def allDoubles : AllocStat where
  map := fun n => if n < 32 ∧ n % 2 = 0 then some (n + 32) else none
  rmap := fun r => if IsPair r then [⟨.double, r - 32⟩] else []
  refcount := fun r => if IsFloat r then 1 else 0

private theorem mem_allDoubles {r : Nat} {v : Var} :
    v ∈ allDoubles.rmap r ↔ IsPair r ∧ v = ⟨.double, r - 32⟩ := by
  change v ∈ (if IsPair r then [(⟨.double, r - 32⟩ : Var)] else []) ↔ _
  split
  · rename_i pair
    rw [List.mem_singleton, and_iff_right pair]
  · rename_i other
    exact ⟨nofun, fun member => absurd member.1 other⟩

private theorem consistent_allDoubles : Consistent 80 (fun _ => false) allDoubles where
  refcount r := by
    cases r with
    | zero => rfl
    | succ r =>
        simp only [allDoubles, seconds, IsPair, IsFloat]
        split <;> split <;> split <;> simp [doubles] <;> omega
  map n r := by
    change (if n < 32 ∧ n % 2 = 0 then some (n + 32) else none) = some r ↔ _
    constructor
    · intro found
      split at found
      · cases found
        exact ⟨_, mem_allDoubles.mpr ⟨⟨⟨by omega, by omega⟩, by omega⟩, rfl⟩,
          Nat.add_sub_cancel n 32⟩
      · cases found
    · rintro ⟨v, member, number⟩
      obtain ⟨⟨⟨low, high⟩, even⟩, rfl⟩ := mem_allDoubles.mp member
      dsimp only at number
      rw [if_pos (by omega), Option.some_inj]
      omega
  distinct r := by
    simp only [allDoubles]
    split <;> simp
  placed r v member := by
    obtain ⟨⟨⟨low, high⟩, _⟩, rfl⟩ := mem_allDoubles.mp member
    rw [VarType.width_double rfl]
    unfold regNumber
    omega
  numbered r v member := by
    obtain ⟨⟨⟨low, high⟩, _⟩, rfl⟩ := mem_allDoubles.mp member
    rw [VarType.width_double rfl]
    dsimp only
    omega
  apart r v member s w other different := by
    obtain ⟨⟨⟨low, high⟩, even⟩, rfl⟩ := mem_allDoubles.mp member
    obtain ⟨⟨⟨low', high'⟩, even'⟩, rfl⟩ := mem_allDoubles.mp other
    dsimp only at different ⊢
    rw [VarType.width_double rfl]
    unfold Apart
    omega
  shared r v member s w other := by
    obtain ⟨⟨_, even⟩, rfl⟩ := mem_allDoubles.mp member
    obtain ⟨⟨_, even'⟩, rfl⟩ := mem_allDoubles.mp other
    dsimp only
    rw [VarType.width_double rfl]
    unfold Apart
    omega
  unreserved _ _ _ := ⟨rfl, fun _ => rfl⟩

private theorem typed_allDoubles : allDoubles.Typed := by
  intro r v member
  obtain ⟨pair, rfl⟩ := mem_allDoubles.mp member
  exact ⟨.inl pair.1, pair.2⟩

theorem spillNonSrcRegister_relieves_iff_double : ∃ h' instrs r,
    spillNonSrcRegister 80 allDoubles [.reg 34] .float = some (h', instrs, r) ∧
      Relieved allDoubles [.reg 34] .float h' instrs r := by
  refine (spillNonSrcRegister_relieves_iff 80 (fun _ => false) allDoubles consistent_allDoubles
    typed_allDoubles nofun [.reg 34] .float (by decide) (by decide)).mpr
    ⟨32, by decide, ⟨⟨.double, 0⟩, by decide, fun _ => ⟨0, by decide, ?_⟩⟩, ?_, nofun⟩
  · intro r v member
    obtain ⟨⟨⟨_, high⟩, _⟩, rfl⟩ := mem_allDoubles.mp member
    refine .inl ?_
    rw [VarType.width_double rfl]
    unfold regNumber
    omega
  · rintro ⟨w, member, ⟨s, low, high, named⟩ | ⟨v, given, _⟩⟩
    · obtain ⟨_, rfl⟩ := mem_allDoubles.mp member
      rw [VarType.width_double rfl] at high
      have same := List.mem_singleton.mp named
      cases same
      omega
    · exact Source.noConfusion (List.mem_singleton.mp given)

/-- With a double source in the first pair, the loop stops at the second register of it. -/
theorem spillNonSrcRegister_spills_half_a_source :
    ¬ ∀ (numVars : Nat) (reserved : Nat → Bool) (h : AllocStat),
      Consistent numVars reserved h → h.Typed →
      (∀ r, reserved r = true → IsHW r ∧ isAvailable r = false) →
      ∀ (sources : List Source) (type : VarType), type ≠ .cc ∧ type ≠ .fvoid →
        findFreeReg h type = none →
        ∃ h' instrs r, spillNonSrcRegister numVars h sources type = some (h', instrs, r) ∧
          Relieved h sources type h' instrs r := by
  intro always
  obtain ⟨h', instrs, r, run, _⟩ := always 80 (fun _ => false) allDoubles consistent_allDoubles
    typed_allDoubles nofun [.reg 32] .float (by decide) (by decide)
  have fails : (spillNonSrcRegister 80 allDoubles [.reg 32] .float).isSome = false := by decide
  rw [run] at fails
  cases fails

end AllocStat

end LaTTe.Registers
