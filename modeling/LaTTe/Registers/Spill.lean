import LaTTe.Registers.Operations
import Mathlib.Data.Finset.Card

namespace LaTTe.Registers

open LaTTe.Data

namespace AllocStat

/-! Runs of the operations. -/

inductive Op where
  | insert (v : Var) (r : Nat)
  | erase (v : Var)
  | changeReg (r1 r2 : Nat)
  | changeMappedReg (v : Var) (r : Nat)
  deriving DecidableEq, Repr

def Op.Legal (numVars : Nat) (h : AllocStat) : Op → Prop
  | .insert v r => v.type ≠ .fvoid ∧ Fits numVars (fun _ => false) h v r
  | .erase v => (h.map v.number).isSome
  | .changeReg r1 r2 => ∃ v, Movable numVars h v r1 r2
  | .changeMappedReg v r =>
      v.type ≠ .fvoid ∧ (h.map v.number).isSome ∧ Fits numVars (fun _ => false) h v r

def Op.exec (h : AllocStat) : Op → Option AllocStat
  | .insert v r => some (h.insert v r)
  | .erase v => h.erase v
  | .changeReg r1 r2 => h.changeReg r1 r2
  | .changeMappedReg v r => h.changeMappedReg v r

def Step (numVars : Nat) (h h' : AllocStat) : Prop :=
  ∃ op : Op, op.Legal numVars h ∧ op.exec h = some h'

section

variable {numVars : Nat} {h h' : AllocStat}

theorem Consistent.step (consistent : Consistent numVars (fun _ => false) h)
    (taken : Step numVars h h') : Consistent numVars (fun _ => false) h' := by
  obtain ⟨op, legal, run⟩ := taken
  cases op with
  | insert v r =>
      cases run
      exact consistent.insert legal.2
  | erase v => exact consistent.erase run
  | changeReg r1 r2 =>
      obtain ⟨v, movable⟩ := legal
      exact consistent.changeReg movable run
  | changeMappedReg v r => exact consistent.changeMappedReg legal.2.2 run

theorem reachable_consistent (reached : Reachable (· = init) (Step numVars) h) :
    Consistent numVars (fun _ => false) h := by
  apply reached.invariant
  · rintro _ rfl
    exact consistent_init
  · exact fun _ _ => Consistent.step

end

/-! Looking for a spill slot. -/

def Spilled (h : AllocStat) (number : Nat) : Prop :=
  ∃ r, ∃ w ∈ h.rmap r, ∃ i < w.type.width, w.number + i = number ∧ regNumber ≤ r + i

structure FreeSlot (numVars : Nat) (h : AllocStat) (type : VarType) (r : Nat) : Prop where
  inRange : regNumber ≤ r ∧ r + type.width ≤ regNumber + numVars
  free : ∀ i < type.width, h.refcount (r + i) = 0
  aligned : type = .double → getSpillOffset (r + 1) % 8 = 0

/-- The slots `2 * k` and `2 * k + 1` hold no word of a variable. -/
def FreePair (h : AllocStat) (k : Nat) : Prop :=
  ∀ r, ∀ w ∈ h.rmap r, Apart r w.type.width (regNumber + 2 * k) 2

section

variable {numVars : Nat} {reserved : Nat → Bool} {h : AllocStat}

/-- There are as many slots as numbers, so while a number is not in use a slot is free. -/
theorem Consistent.exists_free (consistent : Consistent numVars reserved h)
    (allowed : ∀ s, regNumber ≤ s → reserved s = false) {number : Nat}
    (inRange : number < numVars) (notSpilled : ¬ h.Spilled number) :
    ∃ s < numVars, h.refcount (regNumber + s) = 0 := by
  by_contra full
  have taken : ∀ s : Nat, ∃ n, s < numVars →
      n ∈ (Finset.range numVars).erase number ∧
      ∃ r, ∃ w ∈ h.rmap r, ∃ i < w.type.width, w.number + i = n ∧ r + i = regNumber + s := by
    intro s
    by_cases below : s < numVars
    · have occupied : h.refcount (regNumber + s) ≠ 0 := fun free => full ⟨s, below, free⟩
      obtain ⟨r, w, member, low, high⟩ :=
        (consistent.refcount_ne_zero_iff (allowed _ (Nat.le_add_right _ _))).mp occupied
      have bound := consistent.numbered r w member
      refine ⟨w.number + (regNumber + s - r), fun _ => ⟨?_, r, w, member, regNumber + s - r,
        by omega, rfl, by omega⟩⟩
      rw [Finset.mem_erase, Finset.mem_range]
      refine ⟨fun same => notSpilled ?_, by omega⟩
      exact ⟨r, w, member, regNumber + s - r, by omega, same, by omega⟩
    · exact ⟨0, fun below' => absurd below' below⟩
  choose f hf using taken
  have injective : Set.InjOn f (Finset.range numVars) := by
    intro s inS t inT same
    obtain ⟨_, r, w, member, i, inside, number, place⟩ := hf s (Finset.mem_range.mp inS)
    obtain ⟨_, r', w', member', i', inside', number', place'⟩ :=
      hf t (Finset.mem_range.mp inT)
    have equal : w.number = w'.number := by
      by_contra different
      have apart := consistent.apart r w member r' w' member' different
      unfold Apart at apart
      omega
    obtain ⟨rfl, rfl⟩ := consistent.unique member member' equal
    omega
  have maps : ∀ s ∈ Finset.range numVars, f s ∈ (Finset.range numVars).erase number :=
    fun s inS => (hf s (Finset.mem_range.mp inS)).1
  have fewer := Finset.card_le_card_of_injOn f maps injective
  rw [Finset.card_erase_of_mem (Finset.mem_range.mpr inRange), Finset.card_range] at fewer
  omega

theorem freePair_iff (consistent : Consistent numVars reserved h)
    (allowed : ∀ s, regNumber ≤ s → reserved s = false) (k : Nat) :
    h.FreePair k ↔
      h.refcount (regNumber + 2 * k) = 0 ∧ h.refcount (regNumber + 2 * k + 1) = 0 := by
  have first := consistent.refcount_ne_zero_iff (allowed (regNumber + 2 * k) (by omega))
  have second := consistent.refcount_ne_zero_iff (allowed (regNumber + 2 * k + 1) (by omega))
  constructor
  · intro free
    constructor
    · by_contra occupied
      obtain ⟨r, w, member, low, high⟩ := first.mp occupied
      rcases free r w member with apart | apart <;> omega
    · by_contra occupied
      obtain ⟨r, w, member, low, high⟩ := second.mp occupied
      rcases free r w member with apart | apart <;> omega
  · rintro ⟨zero, zero'⟩ r w member
    have positive := w.type.width_pos
    unfold Apart
    by_contra overlap
    by_cases low : r ≤ regNumber + 2 * k
    · exact first.mpr ⟨r, w, member, low, by omega⟩ zero
    · exact second.mpr ⟨r, w, member, by omega, by omega⟩ zero'

theorem findFreeSpill_single {type : VarType} (single : type ≠ .double) (known : type ≠ .cc) :
    findFreeSpill numVars h type =
      (List.range' regNumber numVars).find? fun r => h.refcount r = 0 := by
  cases type with
  | double => exact absurd rfl single
  | cc => exact absurd rfl known
  | int => rfl
  | long => rfl
  | float => rfl
  | ref => rfl
  | ivoid => rfl
  | fvoid => rfl

theorem findFreeSpill_double :
    findFreeSpill numVars h .double =
      (List.range' regNumber (numVars / 2) 2).find? fun r =>
        h.refcount r = 0 ∧ h.refcount (r + 1) = 0 := by
  have even : (getSpillOffset (regNumber + 1)).tmod 8 = 0 := by decide
  rw [findFreeSpill]
  simp only [even, ne_eq, not_true_eq_false, if_false, pairStarts, Nat.add_sub_cancel_left]

theorem freeSlot_of_found {type : VarType} {r : Nat}
    (found : findFreeSpill numVars h type = some r) : FreeSlot numVars h type r := by
  by_cases double : type = .double
  · subst double
    rw [findFreeSpill_double] at found
    have free := List.find?_some found
    obtain ⟨k, below, rfl⟩ := List.mem_range'.mp (List.mem_of_find?_eq_some found)
    rw [decide_eq_true_eq] at free
    refine ⟨⟨by omega, ?_⟩, ?_, fun _ => ?_⟩
    · rw [VarType.width_double rfl]
      omega
    · intro i small
      rw [VarType.width_double rfl] at small
      obtain rfl | rfl : i = 0 ∨ i = 1 := by omega
      · exact free.1
      · exact free.2
    · unfold getSpillOffset regNumber
      omega
  · have known : type ≠ .cc := by
      rintro rfl
      cases found
    rw [findFreeSpill_single double known] at found
    have free := List.find?_some found
    have inRange := List.mem_range'_1.mp (List.mem_of_find?_eq_some found)
    rw [decide_eq_true_eq] at free
    refine ⟨⟨inRange.1, ?_⟩, ?_, fun double' => absurd double' double⟩
    · rw [VarType.width_single double]
      omega
    · intro i small
      rw [VarType.width_single double] at small
      obtain rfl : i = 0 := by omega
      exact free

theorem Consistent.findFreeSpill_isSome (consistent : Consistent numVars reserved h)
    (allowed : ∀ s, regNumber ≤ s → reserved s = false) {v : Var}
    (inRange : v.number + v.type.width ≤ numVars)
    (notSpilled : ∀ i < v.type.width, ¬ h.Spilled (v.number + i)) :
    (∃ r, findFreeSpill numVars h v.type = some r) ↔
      v.type ≠ .cc ∧ (v.type = .double → ∃ k, 2 * k + 2 ≤ numVars ∧ h.FreePair k) := by
  by_cases double : v.type = .double
  · rw [double, findFreeSpill_double, ← Option.isSome_iff_exists, List.find?_isSome]
    constructor
    · rintro ⟨r, member, free⟩
      obtain ⟨k, below, rfl⟩ := List.mem_range'.mp member
      rw [decide_eq_true_eq] at free
      exact ⟨nofun, fun _ => ⟨k, by omega, (freePair_iff consistent allowed k).mpr free⟩⟩
    · rintro ⟨_, some⟩
      obtain ⟨k, inRange, free⟩ := some rfl
      refine ⟨regNumber + 2 * k, List.mem_range'.mpr ⟨k, by omega, rfl⟩, ?_⟩
      rw [decide_eq_true_eq]
      exact (freePair_iff consistent allowed k).mp free
  · by_cases known : v.type = .cc
    · simp [known, findFreeSpill]
    · rw [findFreeSpill_single double known, ← Option.isSome_iff_exists, List.find?_isSome]
      refine ⟨fun _ => ⟨known, fun double' => absurd double' double⟩, fun _ => ?_⟩
      have positive := v.type.width_pos
      obtain ⟨s, below, free⟩ := consistent.exists_free allowed
        (show v.number < numVars by omega) (notSpilled 0 positive)
      refine ⟨regNumber + s, List.mem_range'_1.mpr (by omega), ?_⟩
      rwa [decide_eq_true_eq]

end

/-- In every state of a run a free slot is found for a variable that is not in one, unless it
is a double and every aligned pair of slots holds a word. -/
theorem findFreeSpill_finds_iff {numVars : Nat} {h : AllocStat}
    (reached : Reachable (· = init) (Step numVars) h) (v : Var)
    (inRange : v.number + v.type.width ≤ numVars)
    (notSpilled : ∀ i < v.type.width, ¬ h.Spilled (v.number + i)) :
    (∃ r, findFreeSpill numVars h v.type = some r ∧ FreeSlot numVars h v.type r) ↔
      v.type ≠ .cc ∧ (v.type = .double → ∃ k, 2 * k + 2 ≤ numVars ∧ h.FreePair k) := by
  rw [← (reachable_consistent reached).findFreeSpill_isSome (fun _ _ => rfl) inRange notSpilled]
  exact ⟨fun ⟨r, found, _⟩ => ⟨r, found⟩, fun ⟨r, found⟩ => ⟨r, found, freeSlot_of_found found⟩⟩

private def fragmented : Nat → AllocStat
  | 0 => init
  | k + 1 => (fragmented k).insert ⟨.int, k⟩ (regNumber + 2 * k)

private structure Ints (h : AllocStat) (k : Nat) : Prop where
  consistent : Consistent 76 (fun _ => false) h
  reached : Reachable (· = init) (Step 76) h
  only : ∀ s, ∀ w ∈ h.rmap s, w.type = .int ∧ w.number < k ∧ s < regNumber + 2 * k

private theorem Ints.insert {h : AllocStat} {k : Nat} (ints : Ints h k) (small : k < 38) :
    Ints (h.insert ⟨.int, k⟩ (regNumber + 2 * k)) (k + 1) := by
  have fits : Fits 76 (fun _ => false) h ⟨.int, k⟩ (regNumber + 2 * k) := by
    refine ⟨⟨by unfold regNumber; omega, by simp [VarType.width]; omega⟩, ?_, ?_, ?_,
      ⟨rfl, fun _ => rfl⟩⟩
    · simp [VarType.width]
      omega
    · intro s w member _
      obtain ⟨type, number, _⟩ := ints.only s w member
      refine .inr ?_
      simp [VarType.width, type]
      omega
    · intro s w member _
      obtain ⟨type, _, place⟩ := ints.only s w member
      refine .inl (.inr ?_)
      simp [VarType.width, type]
      omega
  refine ⟨ints.consistent.insert fits,
    ints.reached.tail ⟨.insert ⟨.int, k⟩ (regNumber + 2 * k), ⟨by rintro ⟨⟩, fits⟩, rfl⟩, ?_⟩
  intro s w member
  rcases (mem_insert ints.consistent).mp member with ⟨old, _⟩ | ⟨rfl, rfl⟩
  · obtain ⟨type, number, place⟩ := ints.only s w old
    exact ⟨type, by omega, by omega⟩
  · exact ⟨rfl, by dsimp only; omega, by omega⟩

private theorem ints_fragmented {k : Nat} (small : k ≤ 38) : Ints (fragmented k) k := by
  induction k with
  | zero =>
      exact ⟨consistent_init, .start (show (· = init) init from rfl), by simp [fragmented, init]⟩
  | succ k ih => exact (ih (Nat.le_of_succ_le small)).insert small

private theorem Ints.not_spilled {h : AllocStat} {k n : Nat} (ints : Ints h k) (above : k ≤ n)
    (width : Nat) : ∀ i < width, ¬ h.Spilled (n + i) := by
  rintro i _ ⟨r, w, member, j, inside, number, _⟩
  obtain ⟨type, below, _⟩ := ints.only r w member
  simp only [VarType.width, type, reduceCtorEq, if_false] at inside
  omega

/-- With the last pair of slots still free. -/
theorem findFreeSpill_finds_iff_pair : ∃ r,
    findFreeSpill 76 (fragmented 37) .double = some r ∧ FreeSlot 76 (fragmented 37) .double r := by
  have ints := ints_fragmented (show 37 ≤ 38 by decide)
  refine (findFreeSpill_finds_iff ints.reached ⟨.double, 74⟩ (by decide)
    (ints.not_spilled (by decide) _)).mpr ⟨nofun, fun _ => ⟨37, by decide, ?_⟩⟩
  intro r w member
  obtain ⟨type, _, place⟩ := ints.only r w member
  refine .inl ?_
  simp only [VarType.width, type, reduceCtorEq, if_false]
  unfold regNumber at *
  omega

theorem findFreeSpill_fails_when_fragmented :
    ¬ ∀ (numVars : Nat) (h : AllocStat), Reachable (· = init) (Step numVars) h →
      ∀ v : Var, v.type ≠ .cc → v.number + v.type.width ≤ numVars →
        (∀ i < v.type.width, ¬ h.Spilled (v.number + i)) →
        ∃ r, findFreeSpill numVars h v.type = some r ∧ FreeSlot numVars h v.type r := by
  intro always
  have ints := ints_fragmented (show 38 ≤ 38 by decide)
  obtain ⟨r, found, _⟩ := always 76 (fragmented 38) ints.reached ⟨.double, 74⟩ (by rintro ⟨⟩)
    (by decide) (ints.not_spilled (by decide) _)
  have none : findFreeSpill 76 (fragmented 38) .double = none := by decide +kernel
  rw [none] at found
  cases found

end AllocStat

end LaTTe.Registers
