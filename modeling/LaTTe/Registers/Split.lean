import LaTTe.Registers.Allocated

namespace LaTTe.Registers

open LaTTe.Data (Move performAll performAll_of_not_target)

namespace AllocStat

/-! Giving each of the variables that share a place one of its own. -/

def splitStep (numVars : Nat) (h : AllocStat) (r : Nat) (v : Var) :
    Option (AllocStat × List Instr) :=
  match h.findFreeReg v.type with
  | some newR => do
      let instrs ←
        (if IsHW r then generateCopy v.type r newR else generatePromotion v.type r newR)
      let h ← h.changeMappedReg v newR
      some (h, instrs)
  | none => do
      let newR ← findFreeSpill numVars h v.type
      let instrs ←
        (if IsHW r then generateSpill v.type r newR else generateGeneralCopy v.type r newR)
      let h ← h.changeMappedReg v newR
      some (h, instrs)

/-- The `while` loop for one place; without a second variable there it would go on for ever. -/
def splitPlace (numVars r : Nat) : (fuel : Nat) → AllocStat → Option (AllocStat × List Instr)
  | 0, _ => none
  | fuel + 1, h =>
      if h.refcount r ≤ 1 then some (h, [])
      else match h.findRMap r 1 with
        | none => splitPlace numVars r fuel h
        | some v => do
            let (h, instrs) ← splitStep numVars h r v
            let (h, rest) ← splitPlace numVars r fuel h
            some (h, instrs ++ rest)

def splitPlaces (numVars fuel : Nat) :
    (left r : Nat) → AllocStat → Option (AllocStat × List Instr)
  | 0, _, h => some (h, [])
  | left + 1, r, h => do
      let (h, instrs) ← splitPlace numVars r fuel h
      let (h, rest) ← splitPlaces numVars fuel left (r + 1) h
      some (h, instrs ++ rest)

/-- `RegAlloc_split_variables`: the instructions that it inserts before the join.  The registers
come first and then the slots. -/
def splitVariables (numVars fuel : Nat) (h : AllocStat) : Option (AllocStat × List Instr) :=
  splitPlaces numVars fuel (regNumber + numVars - 1) 1 h

/-! What it is for. -/

def Mapped (h : AllocStat) (s : Nat) : Prop :=
  ∃ r, ∃ v ∈ h.rmap r, r ≤ s ∧ s < r + v.type.width

def Relocates (h : AllocStat) (instrs : List Instr) (h' : AllocStat) : Prop :=
  ∀ m, ∃ m', run instrs m = some m' ∧ (∀ s, h.Mapped s → m'.place s = m.place s) ∧
    ∀ r, ∀ v ∈ h.rmap r, ∃ r', v ∈ h'.rmap r' ∧ m'.words v.type r' = m.words v.type r

inductive Relocated : AllocStat → List Instr → AllocStat → Prop
  | refl (h : AllocStat) : Relocated h [] h
  | step {h h' h'' : AllocStat} {instrs rest : List Instr} (first : Relocates h instrs h')
      (others : Relocated h' rest h'') : Relocated h (instrs ++ rest) h''

def Keeps (h : AllocStat) (instrs : List Instr) (h' : AllocStat) : Prop :=
  ∀ m, ∃ m', run instrs m = some m' ∧
    ∀ r, ∀ v ∈ h.rmap r, ∃ r', v ∈ h'.rmap r' ∧ m'.words v.type r' = m.words v.type r

def Alone (h : AllocStat) : Prop :=
  ∀ r, ∀ v ∈ h.rmap r, ∀ s, ∀ w ∈ h.rmap s, v ≠ w → Apart r v.type.width s w.type.width

/-- The splitting comes to an end, every variable is then alone and has its value, and no copy
writes over what is mapped. -/
def Splits (numVars : Nat) (h : AllocStat) : Prop :=
  ∃ h' instrs, (∃ enough, ∀ fuel, enough ≤ fuel →
      splitVariables numVars fuel h = some (h', instrs)) ∧
    h'.Alone ∧ Keeps h instrs h' ∧ Relocated h instrs h'

/-! When there are places enough. -/

def findPlace (numVars : Nat) (h : AllocStat) (type : VarType) : Option Nat :=
  (h.findFreeReg type).or (findFreeSpill numVars h type)

def sharing (h : AllocStat) (r : Nat) : List VarType := (h.rmap r).tail.map Var.type

def occupy (h : AllocStat) (type : VarType) (r : Nat) : AllocStat :=
  { h with refcount := countUp h.refcount type r }

def Room (numVars : Nat) : List VarType → AllocStat → Prop
  | [], _ => True
  | type :: rest, h => ∃ r, findPlace numVars h type = some r ∧ Room numVars rest (h.occupy type r)

section

variable {numVars : Nat} {reserved : Nat → Bool} {h h' h'' : AllocStat} {v w : Var} {r s newR : Nat}
  {type : VarType} {instrs rest : List Instr}

theorem Relocates.keeps (relocates : Relocates h instrs h') : Keeps h instrs h' := fun m =>
  have ⟨m', done, _, kept⟩ := relocates m
  ⟨m', done, kept⟩

theorem Keeps.trans (first : Keeps h instrs h') (second : Keeps h' rest h'') :
    Keeps h (instrs ++ rest) h'' := by
  intro m
  obtain ⟨m', done, kept⟩ := first m
  obtain ⟨m'', done', kept'⟩ := second m'
  refine ⟨m'', by rw [run_append, done]; exact done', fun r v member => ?_⟩
  obtain ⟨r', member', words⟩ := kept r v member
  obtain ⟨r'', member'', words'⟩ := kept' r' v member'
  exact ⟨r'', member'', words'.trans words⟩

theorem Relocated.keeps (relocated : Relocated h instrs h') : Keeps h instrs h' := by
  induction relocated with
  | refl h => exact fun m => ⟨m, rfl, fun r v member => ⟨r, member, rfl⟩⟩
  | step first _ ih => exact first.keeps.trans ih

theorem Relocated.trans (first : Relocated h instrs h') (second : Relocated h' rest h'') :
    Relocated h (instrs ++ rest) h'' := by
  induction first with
  | refl h => exact second
  | step one _ ih =>
      rw [List.append_assoc]
      exact .step one (ih second)

structure FreePlace (numVars : Nat) (h : AllocStat) (type : VarType) (r : Nat) : Prop where
  placed : 0 < r ∧ r + type.width ≤ regNumber + numVars
  free : ∀ i < type.width, h.refcount (r + i) = 0
  suits : Suits type r
  available : isAvailable r

theorem isAvailable_iff : isAvailable r ↔ 8 ≤ r ∧ r ≠ 14 ∧ r ≠ 15 ∧ r ≠ 30 ∧ r ≠ 31 := by
  simp [isAvailable, and_assoc]

theorem findFreeReg_free (known : type ≠ .cc ∧ type ≠ .fvoid)
    (found : h.findFreeReg type = some r) : IsHW r ∧ FreePlace numVars h type r := by
  have single (single : type ≠ .double) (zero : h.refcount r = 0) :
      ∀ i < type.width, h.refcount (r + i) = 0 := by
    intro i small
    rw [VarType.width_single single] at small
    obtain rfl : i = 0 := by omega
    exact zero
  have integer (single' : type ≠ .double) (suits : IsInteger r → Suits type r)
      (found : (List.range' 16 8 ++ List.range' 24 6 ++ List.range' 8 6).find?
        (fun r => h.refcount r = 0) = some r) : IsHW r ∧ FreePlace numVars h type r := by
    have free := List.find?_some found
    rw [decide_eq_true_eq] at free
    have member := List.mem_of_find?_eq_some found
    simp only [List.mem_append, List.mem_range'_1] at member
    have range : 8 ≤ r ∧ r < 30 ∧ r ≠ 14 ∧ r ≠ 15 := by omega
    refine ⟨?_, ⟨by omega, ?_⟩, single single' free, suits ?_, ?_⟩
    · unfold IsHW regNumber
      omega
    · rw [VarType.width_single single', regNumber]
      omega
    · unfold IsInteger
      omega
    · rw [isAvailable_iff]
      omega
  cases type with
  | int => exact integer nofun .inl found
  | long => exact integer nofun .inl found
  | ref => exact integer nofun .inl found
  | ivoid => exact integer nofun .inl found
  | float =>
      have free := List.find?_some found
      rw [decide_eq_true_eq] at free
      have range := List.mem_range'_1.mp (List.mem_of_find?_eq_some found)
      refine ⟨?_, ⟨by omega, ?_⟩, single nofun free, .inl range, ?_⟩
      · unfold IsHW regNumber
        omega
      · have width : VarType.float.width = 1 := rfl
        rw [width, regNumber]
        omega
      · rw [isAvailable_iff]
        omega
  | double =>
      have free := List.find?_some found
      rw [decide_eq_true_eq] at free
      obtain ⟨k, below, rfl⟩ := List.mem_range'.mp (List.mem_of_find?_eq_some found)
      refine ⟨?_, ⟨by omega, ?_⟩, ?_, ⟨.inl ⟨by omega, by omega⟩, by omega⟩, ?_⟩
      · unfold IsHW regNumber
        omega
      · rw [VarType.width_double rfl, regNumber]
        omega
      · intro i small
        rw [VarType.width_double rfl] at small
        obtain rfl | rfl : i = 0 ∨ i = 1 := by omega
        · exact free.1
        · exact free.2
      · rw [isAvailable_iff]
        omega
  | cc => exact absurd rfl known.1
  | fvoid => exact absurd rfl known.2

theorem findFreeSpill_free (known : type ≠ .cc ∧ type ≠ .fvoid)
    (found : findFreeSpill numVars h type = some r) :
    regNumber ≤ r ∧ FreePlace numVars h type r := by
  have slot := freeSlot_of_found found
  have low := slot.inRange.1
  refine ⟨low, ⟨?_, slot.inRange.2⟩, slot.free, slot.suits known.1 known.2, ?_⟩
  · exact Nat.lt_of_lt_of_le (by decide) low
  · unfold regNumber at low
    rw [isAvailable_iff]
    omega

theorem findPlace_free (known : type ≠ .cc ∧ type ≠ .fvoid)
    (found : findPlace numVars h type = some r) : FreePlace numVars h type r := by
  rcases Option.or_eq_some_iff.mp found with found | ⟨_, found⟩
  · exact (findFreeReg_free known found).2
  · exact (findFreeSpill_free known found).2

/-- All of the instructions are general copies. -/
theorem splitStep_eq (known : v.type ≠ .cc ∧ v.type ≠ .fvoid) :
    splitStep numVars h r v = (findPlace numVars h v.type).bind fun newR =>
      (generateGeneralCopy v.type r newR).bind fun instrs =>
        (h.changeMappedReg v newR).map fun h' => (h', instrs) := by
  unfold splitStep findPlace
  cases found : h.findFreeReg v.type with
  | some newR =>
      have free : IsHW newR ∧ FreePlace numVars h v.type newR := findFreeReg_free known found
      have hw' := free.1
      have general : generateGeneralCopy v.type r newR =
          if IsHW r then generateCopy v.type r newR else generatePromotion v.type r newR := by
        unfold generateGeneralCopy
        by_cases hw : IsHW r
        · rw [if_pos ⟨hw, hw'⟩, if_pos hw]
        · rw [if_neg fun both => hw both.1, if_neg hw, if_pos hw', if_neg hw]
      rw [Option.some_or, Option.bind_some, general]
      dsimp only
      cases (if IsHW r then generateCopy v.type r newR else generatePromotion v.type r newR) with
      | none => rfl
      | some instrs => cases h.changeMappedReg v newR <;> rfl
  | none =>
      rw [Option.none_or]
      cases spill : findFreeSpill numVars h v.type with
      | none => rfl
      | some newR =>
          have slot := (findFreeSpill_free known spill).1
          have general : generateGeneralCopy v.type r newR =
              if IsHW r then generateSpill v.type r newR
              else generateGeneralCopy v.type r newR := by
            by_cases hw : IsHW r
            · rw [if_pos hw, generateGeneralCopy,
                if_neg fun both => Nat.not_lt.mpr slot both.2, if_pos hw]
            · rw [if_neg hw]
          simp only [Option.bind_eq_bind, Option.bind_some, ← general]
          cases generateGeneralCopy v.type r newR with
          | none => rfl
          | some instrs => cases h.changeMappedReg v newR <;> rfl

theorem Consistent.not_mapped (consistent : Consistent numVars reserved h)
    (free : h.refcount s = 0) : reserved s = false ∧ ¬ h.Mapped s := by
  have counted := consistent.refcount s
  have unreserved : reserved s = false := by
    cases taken : reserved s with
    | false => rfl
    | true =>
        rw [taken, Bool.toNat_true] at counted
        omega
  exact ⟨unreserved, fun mapped => (consistent.refcount_ne_zero_iff unreserved).mpr mapped free⟩

theorem FreePlace.apart (place : FreePlace numVars h type newR)
    (consistent : Consistent numVars reserved h) (member : w ∈ h.rmap s) :
    Apart newR type.width s w.type.width := by
  have := w.type.width_pos
  have := type.width_pos
  unfold Apart
  by_contra overlap
  by_cases low : newR ≤ s
  · have free := place.free (s - newR) (by omega)
    rw [Nat.add_sub_cancel' low] at free
    exact (consistent.not_mapped free).2 ⟨s, w, member, by omega, by omega⟩
  · exact (consistent.not_mapped (place.free 0 (by omega))).2 ⟨s, w, member, by omega, by omega⟩

theorem FreePlace.fits (place : FreePlace numVars h v.type newR)
    (consistent : Consistent numVars reserved h) (member : v ∈ h.rmap r) :
    Fits numVars reserved h v newR where
  placed := place.placed
  numbered := consistent.numbered r v member
  apart s w other different := consistent.apart r v member s w other different.symm
  shared s w other _ := .inl (place.apart consistent other)
  unreserved := by
    refine ⟨(consistent.not_mapped (place.free 0 v.type.width_pos)).1, fun double => ?_⟩
    refine (consistent.not_mapped (place.free 1 ?_)).1
    rw [VarType.width_double double]
    decide

theorem Allocated.moved (allocated : h.Allocated numVars reserved) (member : v ∈ h.rmap r)
    (place : FreePlace numVars h v.type newR) :
    ((h.without v r).withVar v newR).Allocated numVars reserved ∧
      ∀ x s, x ∈ ((h.without v r).withVar v newR).rmap s ↔
        (x ∈ h.rmap s ∧ x.number ≠ v.number) ∨ s = newR ∧ x = v := by
  have consistent := allocated.consistent
  have fits := place.fits consistent member
  have consistent' := consistent.without member rfl
  have members (x : Var) (s : Nat) : x ∈ ((h.without v r).withVar v newR).rmap s ↔
      (x ∈ h.rmap s ∧ x.number ≠ v.number) ∨ s = newR ∧ x = v := by
    rw [mem_withVar consistent', mem_without consistent member rfl]
  refine ⟨⟨consistent.moved fits member rfl, ?_, ?_⟩, members⟩
  · intro s x inside
    rcases (members x s).mp inside with ⟨old, _⟩ | ⟨rfl, rfl⟩
    · exact allocated.typed s x old
    · exact place.suits
  · intro s x inside
    rcases (members x s).mp inside with ⟨old, _⟩ | ⟨rfl, rfl⟩
    · exact allocated.available s x old
    · exact place.available

theorem FreePlace.ne (place : FreePlace numVars h v.type newR)
    (consistent : Consistent numVars reserved h) (member : v ∈ h.rmap r) : newR ≠ r := by
  rintro rfl
  have apart := place.apart consistent member
  have := v.type.width_pos
  unfold Apart at apart
  omega

structure SecondMoved (h : AllocStat) (r newR : Nat) (first v : Var) (others : List Var)
    (h' : AllocStat) : Prop where
  rmap : h'.rmap = Function.update (Function.update h.rmap r (first :: others)) newR [v]
  refcount : h'.refcount = countUp (countDown h.refcount (some v.type) r) v.type newR

theorem splitStep_spec (allocated : h.Allocated numVars reserved) {first : Var}
    {others : List Var} (vars : h.rmap r = first :: v :: others)
    (found : findPlace numVars h v.type = some newR) :
    ∃ h' instrs, splitStep numVars h r v = some (h', instrs) ∧ h'.Allocated numVars reserved ∧
      Relocates h instrs h' ∧ SecondMoved h r newR first v others h' := by
  have consistent := allocated.consistent
  have member : v ∈ h.rmap r := by
    rw [vars]
    exact List.mem_cons_of_mem _ List.mem_cons_self
  have suits := allocated.typed r v member
  have place := findPlace_free suits.known found
  have mapped : h.map v.number = some r := (consistent.map _ _).mpr ⟨v, member, rfl⟩
  have away : newR ≠ r := place.ne consistent member
  obtain ⟨instrs, generated, performs⟩ :=
    performs_generateGeneralCopy (suits.copyable place.suits)
  have changed : h.changeMappedReg v newR = some ((h.without v r).withVar v newR) := by
    rw [changeMappedReg_eq consistent, mapped]
    rfl
  have consistent' := consistent.without member rfl
  obtain ⟨allocated', members⟩ := allocated.moved member place
  refine ⟨_, instrs, by rw [splitStep_eq suits.known, found]; simp [generated, changed],
    allocated', ?_, ?_, ?_⟩
  · intro m
    obtain ⟨m', done, places⟩ := performs m
    have others (s : Nat) (kept : h.Mapped s) : m'.place s = m.place s := by
      obtain ⟨t, x, inside, low, high⟩ := kept
      rw [places s ((allocated.typed t x inside).not_scratch (allocated.not_scratch inside)
        low high), performAll_of_not_target]
      intro move member same
      have within := (mem_wordMoves member).2
      have apart := place.apart consistent inside
      unfold Apart at apart
      omega
    refine ⟨m', done, others, fun t x inside => ?_⟩
    by_cases same : x.number = v.number
    · obtain ⟨rfl, rfl⟩ := consistent.unique inside member same
      refine ⟨newR, (members x newR).mpr (.inr ⟨rfl, rfl⟩), ?_⟩
      exact words_of_moves places (place.apart consistent inside).symm fun s low high =>
        place.suits.not_scratch (not_scratch_of_available place.available) low high
    · refine ⟨t, (members x t).mpr (.inl ⟨inside, same⟩), Machine.words_congr ?_⟩
      intro s low high
      exact others s ⟨t, x, inside, low, high⟩
  · have removed := removeRMap_eq consistent member rfl (Function.update h.map v.number none)
    have different : first.number ≠ v.number := by
      have distinct := consistent.distinct r
      rw [vars, List.map_cons, List.map_cons, List.nodup_cons] at distinct
      exact fun same => distinct.1 (same ▸ List.mem_cons_self)
    have rmap : (h.without v r).rmap = Function.update h.rmap r (first :: others) := by
      rw [without, removed, vars, List.eraseP_cons_of_neg (by simpa using different),
        List.eraseP_cons_of_pos (by simp)]
    rw [withVar_eq consistent']
    dsimp only
    have free : h.refcount newR = 0 := place.free 0 v.type.width_pos
    rw [rmap, Function.update_of_ne away, consistent.rmap_eq_nil free]
    rfl
  · have removed := removeRMap_eq consistent member rfl (Function.update h.map v.number none)
    rw [withVar_eq consistent', without, removed]

theorem Consistent.second_exists (consistent : Consistent numVars reserved h) (positive : 0 < r)
    (before : ∀ s, 0 < s → s < r → h.refcount s ≤ 1) (twice : 1 < h.refcount r) :
    ∃ first v others, h.rmap r = first :: v :: others ∧ h.findRMap r 1 = some v := by
  cases vars : h.rmap r with
  | nil =>
      have counted := consistent.refcount r
      rw [vars, List.length_nil, Nat.zero_add] at counted
      have unreserved := Bool.toNat_le (reserved r)
      obtain ⟨s, rfl⟩ : ∃ s, r = s + 1 := ⟨r - 1, by omega⟩
      have seconds : h.seconds (s + 1) = doubles (h.rmap s) := rfl
      obtain ⟨v, member, double⟩ := List.countP_pos_iff.mp
        (show 0 < doubles (h.rmap s) by omega)
      have placed := (consistent.placed s v member).1
      have alone := (consistent.unreserved s v member).2 (of_decide_eq_true double)
      rw [alone, Bool.toNat_false] at counted
      have fewer : doubles (h.rmap s) ≤ (h.rmap s).length := List.countP_le_length
      have := consistent.length_le s
      have := before s placed (Nat.lt_succ_self s)
      omega
  | cons first rest =>
      have counted := consistent.refcount_of_mem (vars ▸ List.mem_cons_self : first ∈ h.rmap r)
      rw [vars, List.length_cons] at counted
      cases rest with
      | nil =>
          rw [List.length_nil] at counted
          omega
      | cons v others =>
          rw [List.length_cons] at counted
          refine ⟨first, v, others, rfl, ?_⟩
          rw [findRMap, counted, vars]
          rfl

/-- What the counts are when one of several variables has left. -/
theorem counts_of_moved (consistent : Consistent numVars reserved h) (member : v ∈ h.rmap r)
    (several : 1 < (h.rmap r).length) (place : FreePlace numVars h v.type newR)
    (moved : h'.refcount = countUp (countDown h.refcount (some v.type) r) v.type newR) :
    (∀ s, h'.refcount s = 0 ↔ (h.occupy v.type newR).refcount s = 0) ∧
      (∀ s, h'.refcount s ≤ max 1 (h.refcount s)) ∧ h'.refcount r + 1 = h.refcount r := by
  have counted := consistent.refcount_of_mem member
  have counted' := consistent.refcount (r + 1)
  have seconds : h.seconds (r + 1) = doubles (h.rmap r) := rfl
  rw [seconds, consistent.doubles_eq member] at counted'
  have free := place.free 0 v.type.width_pos
  have free' : v.type = .double → h.refcount (newR + 1) = 0 := fun double =>
    place.free 1 (by rw [VarType.width_double double]; decide)
  rw [Nat.add_zero] at free
  have refcount (s : Nat) : h'.refcount s = (h.refcount s - (if s = r then 1 else 0) -
      if some v.type = some .double ∧ s = r + 1 then 1 else 0) + (if s = newR then 1 else 0) +
      if v.type = .double ∧ s = newR + 1 then 1 else 0 := by
    rw [moved, countUp_apply, countDown_apply]
  have occupied (s : Nat) : (h.occupy v.type newR).refcount s = h.refcount s +
      (if s = newR then 1 else 0) + if v.type = .double ∧ s = newR + 1 then 1 else 0 :=
    countUp_apply _ _ _
  generalize (h.occupy v.type newR).refcount = occupancy at occupied ⊢
  have behind (s : Nat) (same : s = newR) : h.refcount s = 0 := same ▸ free
  have behind' (s : Nat) (double : v.type = .double) (same : s = newR + 1) :
      h.refcount s = 0 := same ▸ free' double
  simp only [Option.some_inj] at refcount
  by_cases double : v.type = .double
  · simp only [double, true_and, if_true] at refcount occupied counted'
    refine ⟨fun s => ?_, fun s => ?_, ?_⟩
    · have := behind s
      have := behind' s double
      rw [refcount, occupied]
      by_cases here : s = r
      · subst here
        split_ifs <;> omega
      · by_cases next : s = r + 1
        · subst next
          split_ifs <;> omega
        · rw [if_neg here, if_neg next, Nat.sub_zero, Nat.sub_zero]
    · have := behind s
      have := behind' s double
      rw [refcount]
      split_ifs <;> omega
    · have := behind r
      have := behind' r double
      rw [refcount]
      split_ifs <;> omega
  · simp only [double, false_and, if_false] at refcount occupied
    refine ⟨fun s => ?_, fun s => ?_, ?_⟩
    · have := behind s
      rw [refcount, occupied]
      by_cases here : s = r
      · subst here
        split_ifs <;> omega
      · rw [if_neg here, Nat.sub_zero, Nat.sub_zero]
    · have := behind s
      rw [refcount]
      split_ifs <;> omega
    · have := behind r
      rw [refcount]
      split_ifs <;> omega

theorem SecondMoved.counts {first : Var} {others : List Var}
    (moved : SecondMoved h r newR first v others h') (consistent : Consistent numVars reserved h)
    (vars : h.rmap r = first :: v :: others) (place : FreePlace numVars h v.type newR) :
    (∀ s, h'.refcount s = 0 ↔ (h.occupy v.type newR).refcount s = 0) ∧
      (∀ s, h'.refcount s ≤ max 1 (h.refcount s)) ∧ h'.refcount r + 1 = h.refcount r := by
  refine counts_of_moved consistent ?_ ?_ place moved.refcount
  · rw [vars]
    exact List.mem_cons_of_mem _ List.mem_cons_self
  · rw [vars, List.length_cons, List.length_cons]
    omega

theorem SecondMoved.tail {first : Var} {others : List Var}
    (moved : SecondMoved h r newR first v others h') (consistent : Consistent numVars reserved h)
    (place : FreePlace numVars h v.type newR) (other : s ≠ r) :
    (h'.rmap s).tail = (h.rmap s).tail := by
  rw [moved.rmap]
  by_cases new : s = newR
  · subst new
    have free : h.refcount s = 0 := place.free 0 v.type.width_pos
    rw [Function.update_self, consistent.rmap_eq_nil free]
    rfl
  · rw [Function.update_of_ne new, Function.update_of_ne other]

theorem free_congr (same : ∀ s, h.refcount s = 0 ↔ h'.refcount s = 0) :
    (fun r => decide (h.refcount r = 0)) = (fun r => decide (h'.refcount r = 0)) ∧
      (fun r => decide (h.refcount r = 0 ∧ h.refcount (r + 1) = 0)) =
        fun r => decide (h'.refcount r = 0 ∧ h'.refcount (r + 1) = 0) :=
  ⟨funext fun r => decide_eq_decide.mpr (same r),
    funext fun r => decide_eq_decide.mpr (and_congr (same r) (same (r + 1)))⟩

theorem findFreeReg_congr (same : ∀ s, h.refcount s = 0 ↔ h'.refcount s = 0) :
    h.findFreeReg type = h'.findFreeReg type := by
  obtain ⟨single, pair⟩ := free_congr same
  unfold findFreeReg
  cases type with
  | double => simp only [pair]
  | cc => rfl
  | int | long | ref | ivoid | float | fvoid => simp only [single]

theorem findFreeSpill_congr (same : ∀ s, h.refcount s = 0 ↔ h'.refcount s = 0) :
    findFreeSpill numVars h type = findFreeSpill numVars h' type := by
  obtain ⟨single, pair⟩ := free_congr same
  unfold findFreeSpill
  cases type with
  | double => simp only [pair]
  | cc => rfl
  | int | long | ref | ivoid | float | fvoid => simp only [single]

theorem findPlace_congr (same : ∀ s, h.refcount s = 0 ↔ h'.refcount s = 0) :
    findPlace numVars h type = findPlace numVars h' type := by
  rw [findPlace, findPlace, findFreeReg_congr same, findFreeSpill_congr same]

theorem room_congr {types : List VarType} (same : ∀ s, h.refcount s = 0 ↔ h'.refcount s = 0) :
    Room numVars types h ↔ Room numVars types h' := by
  induction types generalizing h h' with
  | nil => rfl
  | cons type rest ih =>
      unfold Room
      refine exists_congr fun r => ?_
      rw [findPlace_congr same]
      refine and_congr_right fun _ => ih fun s => ?_
      have := same s
      change countUp _ _ _ s = 0 ↔ countUp _ _ _ s = 0
      rw [countUp_apply, countUp_apply]
      omega

structure PlaceSplit (numVars : Nat) (reserved : Nat → Bool) (r : Nat) (h : AllocStat)
    (instrs : List Instr) (h' : AllocStat) : Prop where
  relocated : Relocated h instrs h'
  allocated : h'.Allocated numVars reserved
  alone : h'.refcount r ≤ 1
  counts : ∀ s, h'.refcount s ≤ max 1 (h.refcount s)
  tail : ∀ s, s ≠ r → (h'.rmap s).tail = (h.rmap s).tail
  room : ∀ types, Room numVars (h.sharing r ++ types) h ↔ Room numVars types h'

theorem splitPlace_some {fuel : Nat} (allocated : h.Allocated numVars reserved)
    (positive : 0 < r) (before : ∀ s, 0 < s → s < r → h.refcount s ≤ 1)
    (done : splitPlace numVars r fuel h = some (h', instrs)) :
    PlaceSplit numVars reserved r h instrs h' := by
  induction fuel generalizing h instrs with
  | zero => cases done
  | succ fuel ih =>
      unfold splitPlace at done
      by_cases alone : h.refcount r ≤ 1
      · have none_sharing : h.sharing r = [] := by
          have shorter := allocated.consistent.length_le r
          rw [sharing, List.map_eq_nil_iff, ← List.length_eq_zero_iff, List.length_tail]
          omega
        rw [if_pos alone] at done
        cases done
        exact ⟨.refl _, allocated, alone, fun s => le_max_right _ _, fun _ _ => rfl,
          fun types => by rw [none_sharing]; rfl⟩
      · rw [if_neg alone] at done
        obtain ⟨first, v, others, vars, found⟩ :=
          allocated.consistent.second_exists positive before (Nat.not_le.mp alone)
        have suits := allocated.typed r v (vars ▸ List.mem_cons_of_mem _ List.mem_cons_self)
        rw [found] at done
        dsimp only at done
        obtain ⟨⟨h₁, instrs₁⟩, step, done⟩ := Option.bind_eq_some_iff.mp done
        obtain ⟨⟨h₂, instrs₂⟩, loop, done⟩ := Option.bind_eq_some_iff.mp done
        cases done
        have step' := step
        rw [splitStep_eq suits.known] at step'
        obtain ⟨newR, place, -⟩ := Option.bind_eq_some_iff.mp step'
        obtain ⟨h₁', instrs₁', step', allocated₁, relocates, moved⟩ :=
          splitStep_spec allocated vars place
        cases step.symm.trans step'
        have free := findPlace_free suits.known place
        obtain ⟨zeros, fewer, left⟩ := moved.counts allocated.consistent vars free
        have rest := ih allocated₁ (fun s low high => by
          have := before s low high
          have := fewer s
          omega) loop
        refine ⟨.step relocates rest.relocated, rest.allocated, rest.alone, fun s => ?_,
          fun s other => ?_, fun types => ?_⟩
        · have := rest.counts s
          have := fewer s
          omega
        · rw [rest.tail s other, moved.tail allocated.consistent free other]
        · have away : r ≠ newR := by
            rintro rfl
            have empty : h.refcount r = 0 := free.free 0 v.type.width_pos
            omega
          have sharing₁ : h₁.sharing r = others.map Var.type := by
            rw [sharing, moved.rmap, Function.update_of_ne away, Function.update_self]
            rfl
          have sharing₀ : h.sharing r = v.type :: others.map Var.type := by
            rw [sharing, vars]
            rfl
          rw [← rest.room types, sharing₁, sharing₀, room_congr zeros, List.cons_append, Room]
          constructor
          · rintro ⟨newR', place', room⟩
            cases place.symm.trans place'
            exact room
          · exact fun room => ⟨newR, place, room⟩

theorem splitPlace_isSome {fuel : Nat} (allocated : h.Allocated numVars reserved)
    (positive : 0 < r) (before : ∀ s, 0 < s → s < r → h.refcount s ≤ 1)
    (room : Room numVars (h.sharing r) h) (enough : (h.rmap r).length < fuel) :
    ∃ h' instrs, splitPlace numVars r fuel h = some (h', instrs) := by
  induction fuel generalizing h with
  | zero => cases enough
  | succ fuel ih =>
      unfold splitPlace
      by_cases alone : h.refcount r ≤ 1
      · exact ⟨h, [], if_pos alone⟩
      · obtain ⟨first, v, others, vars, found⟩ :=
          allocated.consistent.second_exists positive before (Nat.not_le.mp alone)
        have suits := allocated.typed r v (vars ▸ List.mem_cons_of_mem _ List.mem_cons_self)
        have sharing₀ : h.sharing r = v.type :: others.map Var.type := by
          rw [sharing, vars]
          rfl
        rw [sharing₀] at room
        obtain ⟨newR, place, room⟩ := room
        obtain ⟨h₁, instrs₁, step, allocated₁, relocates, moved⟩ :=
          splitStep_spec allocated vars place
        have free := findPlace_free suits.known place
        obtain ⟨zeros, fewer, left⟩ := moved.counts allocated.consistent vars free
        have away : r ≠ newR := by
          rintro rfl
          have empty : h.refcount r = 0 := free.free 0 v.type.width_pos
          omega
        have rmap₁ : h₁.rmap r = first :: others := by
          rw [moved.rmap, Function.update_of_ne away, Function.update_self]
        obtain ⟨h', instrs, loop⟩ := ih allocated₁ (fun s low high => by
          have := before s low high
          have := fewer s
          omega) (by rw [sharing, rmap₁]; exact (room_congr zeros).mpr room) (by
          rw [rmap₁]
          rw [vars, List.length_cons] at enough
          rw [List.length_cons] at enough ⊢
          omega)
        refine ⟨h', instrs₁ ++ instrs, ?_⟩
        rw [if_neg alone, found]
        dsimp only
        rw [step]
        exact congrArg (Option.bind · _) loop

theorem splitPlace_mono {fuel fuel' : Nat} (more : fuel ≤ fuel')
    (done : splitPlace numVars r fuel h = some (h', instrs)) :
    splitPlace numVars r fuel' h = some (h', instrs) := by
  induction fuel generalizing fuel' h h' instrs with
  | zero => cases done
  | succ fuel ih =>
      obtain ⟨fuel', rfl⟩ : ∃ k, fuel' = k + 1 := ⟨fuel' - 1, by omega⟩
      have more := Nat.le_of_succ_le_succ more
      unfold splitPlace at done ⊢
      by_cases alone : h.refcount r ≤ 1
      · rw [if_pos alone] at done ⊢
        exact done
      · rw [if_neg alone] at done ⊢
        cases found : h.findRMap r 1 with
        | none =>
            rw [found] at done
            exact ih more done
        | some v =>
            rw [found] at done
            dsimp only at done ⊢
            obtain ⟨⟨h₁, instrs₁⟩, step, done⟩ := Option.bind_eq_some_iff.mp done
            obtain ⟨⟨h₂, instrs₂⟩, loop, done⟩ := Option.bind_eq_some_iff.mp done
            rw [step]
            refine Option.bind_eq_some_iff.mpr ⟨(h₁, instrs₁), rfl, ?_⟩
            exact Option.bind_eq_some_iff.mpr ⟨(h₂, instrs₂), ih more loop, done⟩

theorem room_append {types others : List VarType} (room : Room numVars (types ++ others) h) :
    Room numVars types h := by
  induction types generalizing h with
  | nil => trivial
  | cons type rest ih =>
      obtain ⟨r, place, room⟩ := room
      exact ⟨r, place, ih room⟩

theorem room_double {types : List VarType} (room : Room numVars types h)
    (double : .double ∈ types) : ∃ r, FreePlace numVars h .double r := by
  induction types generalizing h with
  | nil => cases double
  | cons type rest ih =>
      obtain ⟨r, place, room⟩ := room
      rcases List.mem_cons.mp double with rfl | double
      · exact ⟨r, findPlace_free (by decide) place⟩
      · obtain ⟨r', free⟩ := ih room double
        refine ⟨r', free.placed, fun i small => ?_, free.suits, free.available⟩
        have zero : countUp h.refcount type r (r' + i) = 0 := free.free i small
        rw [countUp_apply] at zero
        omega

theorem Allocated.findFreeSpill_isSome (allocated : h.Allocated numVars reserved)
    (allowed : ∀ s, regNumber ≤ s → reserved s = false) (member : v ∈ h.rmap r)
    (several : 1 < (h.rmap r).length) (single : v.type ≠ .double) :
    (findFreeSpill numVars h v.type).isSome := by
  have consistent := allocated.consistent
  have numbered := consistent.numbered r v member
  have known := (allocated.typed r v member).known
  have width := VarType.width_single single
  have consistent' := consistent.without member rfl
  -- without the variable there is a free slot, and that is not the place it shares
  obtain ⟨s, below, free⟩ := consistent'.exists_free allowed (show v.number < numVars by omega) (by
    rintro ⟨t, w, inside, i, small, number, -⟩
    obtain ⟨old, different⟩ := (mem_without consistent member rfl).mp inside
    have apart := consistent.apart t w old r v member different
    unfold Apart at apart
    omega)
  have counted := consistent.refcount_of_mem member
  have zero : h.refcount (regNumber + s) = 0 := by
    rw [without, removeRMap_eq consistent member rfl] at free
    change countDown h.refcount (some v.type) r (regNumber + s) = 0 at free
    rw [countDown_apply, if_neg (show ¬ (some v.type = some .double ∧ _) by simp [single])] at free
    by_cases here : regNumber + s = r
    · rw [here, if_pos rfl] at free
      omega
    · rw [if_neg here] at free
      omega
  rw [findFreeSpill_single single known.1, List.find?_isSome]
  exact ⟨regNumber + s, List.mem_range'_1.mpr (by omega), decide_eq_true zero⟩

def allSharing (left r : Nat) (h : AllocStat) : List VarType :=
  (List.range' r left).flatMap h.sharing

theorem allSharing_congr {left : Nat} (tail : ∀ s, s ≠ r → (h'.rmap s).tail = (h.rmap s).tail) :
    allSharing left (r + 1) h' = allSharing left (r + 1) h := by
  unfold allSharing
  refine List.flatMap_congr fun s member => ?_
  have range := List.mem_range'_1.mp member
  rw [sharing, sharing, tail s (by omega)]

structure PlacesSplit (numVars : Nat) (reserved : Nat → Bool) (left r : Nat) (h : AllocStat)
    (instrs : List Instr) (h' : AllocStat) : Prop where
  relocated : Relocated h instrs h'
  allocated : h'.Allocated numVars reserved
  alone : ∀ s, 0 < s → s < r + left → h'.refcount s ≤ 1
  room : Room numVars (allSharing left r h) h

theorem splitPlaces_some {fuel left : Nat} (allocated : h.Allocated numVars reserved)
    (positive : 0 < r) (before : ∀ s, 0 < s → s < r → h.refcount s ≤ 1)
    (done : splitPlaces numVars fuel left r h = some (h', instrs)) :
    PlacesSplit numVars reserved left r h instrs h' := by
  induction left generalizing r h instrs with
  | zero =>
      cases done
      exact ⟨.refl _, allocated, before, trivial⟩
  | succ left ih =>
      obtain ⟨⟨h₁, instrs₁⟩, first, done⟩ := Option.bind_eq_some_iff.mp done
      obtain ⟨⟨h₂, instrs₂⟩, others, done⟩ := Option.bind_eq_some_iff.mp done
      cases done
      have split := splitPlace_some allocated positive before first
      have rest := ih split.allocated (Nat.succ_pos r) (fun s low high => by
        by_cases here : s = r
        · rw [here]
          exact split.alone
        · have := before s low (by omega)
          have := split.counts s
          omega) others
      refine ⟨split.relocated.trans rest.relocated, rest.allocated, fun s low high =>
        rest.alone s low (by omega), ?_⟩
      have sharing₁ : allSharing (left + 1) r h = h.sharing r ++ allSharing left (r + 1) h₁ := by
        rw [allSharing_congr split.tail]
        rfl
      rw [sharing₁, split.room]
      exact rest.room

theorem splitPlaces_isSome {left : Nat} (allocated : h.Allocated numVars reserved)
    (positive : 0 < r) (before : ∀ s, 0 < s → s < r → h.refcount s ≤ 1)
    (room : Room numVars (allSharing left r h) h) :
    ∃ h' instrs enough, ∀ fuel, enough ≤ fuel →
      splitPlaces numVars fuel left r h = some (h', instrs) := by
  induction left generalizing r h with
  | zero => exact ⟨h, [], 0, fun _ _ => rfl⟩
  | succ left ih =>
      have here : Room numVars (h.sharing r ++ allSharing left (r + 1) h) h := room
      obtain ⟨h₁, instrs₁, first⟩ := splitPlace_isSome allocated positive before
        (room_append here) (Nat.lt_succ_self _)
      have split := splitPlace_some allocated positive before first
      obtain ⟨h', instrs₂, enough, rest⟩ := ih split.allocated (Nat.succ_pos r)
        (fun s low high => by
          by_cases here : s = r
          · rw [here]
            exact split.alone
          · have := before s low (by omega)
            have := split.counts s
            omega) (by
          rw [allSharing_congr split.tail]
          exact (split.room _).mp here)
      refine ⟨h', instrs₁ ++ instrs₂, max enough ((h.rmap r).length + 1), fun fuel more => ?_⟩
      refine Option.bind_eq_some_iff.mpr
        ⟨(h₁, instrs₁), splitPlace_mono (le_trans (le_max_right _ _) more) first, ?_⟩
      exact Option.bind_eq_some_iff.mpr
        ⟨(h', instrs₂), rest fuel (le_trans (le_max_left _ _) more), rfl⟩

theorem Allocated.alone (allocated : h.Allocated numVars reserved)
    (once : ∀ s, 0 < s → s < regNumber + numVars → h.refcount s ≤ 1) : h.Alone := by
  intro r v member s w member' different
  rcases allocated.consistent.shared r v member s w member' with apart | ⟨rfl, -⟩
  · exact apart
  · have placed := allocated.consistent.placed r v member
    have := v.type.width_pos
    have counted := allocated.consistent.refcount_of_mem member
    have := once r placed.1 (by omega)
    obtain ⟨x, same⟩ := List.length_eq_one_iff.mp
      (show (h.rmap r).length = 1 by
        have := List.length_pos_of_mem member
        omega)
    rw [same, List.mem_singleton] at member member'
    exact absurd (member.trans member'.symm) different

end

section

variable {numVars : Nat} {reserved : Nat → Bool} {h : AllocStat} {r : Nat}

theorem room_of_splits (allocated : h.Allocated numVars reserved) (splits : Splits numVars h) :
    Room numVars (allSharing (regNumber + numVars - 1) 1 h) h := by
  obtain ⟨h', instrs, ⟨enough, done⟩, -⟩ := splits
  exact (splitPlaces_some allocated Nat.one_pos (fun s low high => by omega)
    (done enough le_rfl)).room

theorem splits_of_room (allocated : h.Allocated numVars reserved)
    (room : Room numVars (allSharing (regNumber + numVars - 1) 1 h) h) : Splits numVars h := by
  have before (s : Nat) (low : 0 < s) (high : s < 1) : h.refcount s ≤ 1 := by omega
  obtain ⟨h', instrs, enough, done⟩ := splitPlaces_isSome allocated Nat.one_pos before room
  have split := splitPlaces_some allocated Nat.one_pos before (done enough le_rfl)
  refine ⟨h', instrs, ⟨enough, done⟩, split.allocated.alone fun s low high => ?_,
    split.relocated.keeps, split.relocated⟩
  exact split.alone s low (by unfold regNumber at *; omega)

end

/-- Every variable gets a place of its own exactly when there are places enough for those that
share one. -/
theorem splitVariables_splits_iff {numVars : Nat} {reserved : Nat → Bool} {h : AllocStat}
    (allocated : h.Allocated numVars reserved) :
    Splits numVars h ↔ Room numVars (allSharing (regNumber + numVars - 1) 1 h) h :=
  ⟨room_of_splits allocated, splits_of_room allocated⟩

def integersIn (r : Nat) : List (Var × Nat) := [(⟨.int, 0⟩, r), (⟨.int, 1⟩, r)]

theorem wellRecorded_integersIn : WellRecorded 2 (integersIn 16) := by
  refine ⟨fun p member => ?_, List.pairwise_pair.mpr ⟨.inl (by decide), .inr ⟨rfl, rfl⟩⟩⟩
  simp only [integersIn, List.mem_cons, List.not_mem_nil, or_false] at member
  rcases member with rfl | rfl
  · exact ⟨by decide, by decide, by decide, by decide⟩
  · exact ⟨by decide, by decide, by decide, by decide⟩

theorem splitVariables_splits_iff_integers :
    Splits 2 (init.insertAll (integersIn 16)) ↔
      Room 2 (allSharing (regNumber + 2 - 1) 1 (init.insertAll (integersIn 16)))
        (init.insertAll (integersIn 16)) :=
  splitVariables_splits_iff (allocated_init.insertAll wellRecorded_integersIn nofun).1

def crowded : List (Var × Nat) :=
  [(⟨.double, 0⟩, 32), (⟨.double, 2⟩, 32)] ++
    ((List.range 15).map fun i => (⟨.float, 4 + i⟩, 34 + 2 * i)) ++
    (List.range 38).map fun i => (⟨.int, 19 + i⟩, 72 + 2 * i)

theorem wellRecorded_crowded : WellRecorded 76 crowded := by
  constructor
  · have each : ∀ p ∈ crowded, (0 < p.2 ∧ p.2 + p.1.type.width ≤ regNumber + 76) ∧
        p.1.number + p.1.type.width ≤ 76 ∧ Suits p.1.type p.2 ∧ isAvailable p.2 := by
      decide +kernel
    intro p member
    obtain ⟨placed, numbered, suits, available⟩ := each p member
    exact ⟨placed, numbered, suits, available⟩
  · have pairs : crowded.Pairwise fun p q =>
        (p.1.number + p.1.type.width ≤ q.1.number ∨ q.1.number + q.1.type.width ≤ p.1.number) ∧
        ((p.2 + p.1.type.width ≤ q.2 ∨ q.2 + q.1.type.width ≤ p.2) ∨
          p.2 = q.2 ∧ p.1.type.width = q.1.type.width) := by
      decide +kernel
    exact pairs.imp fun ⟨apart, shared⟩ => ⟨apart, shared⟩

/-- The second double of the pair finds neither registers nor slots. -/
theorem splitVariables_fails_when_crowded :
    (init.insertAll crowded).Allocated 76 (fun _ => false) ∧
      ¬ Splits 76 (init.insertAll crowded) := by
  obtain ⟨allocated, members⟩ := allocated_init.insertAll wellRecorded_crowded nofun
  refine ⟨allocated, fun splits => ?_⟩
  have member (w : Var) (s : Nat) (recorded : (w, s) ∈ crowded) :
      w ∈ (init.insertAll crowded).rmap s := (members w s).mpr (.inr recorded)
  have first := member ⟨.double, 0⟩ 32 (by decide)
  have second := member ⟨.double, 2⟩ 32 (by decide)
  have shared : .double ∈ (init.insertAll crowded).sharing 32 := by
    cases vars : (init.insertAll crowded).rmap 32 with
    | nil =>
        rw [vars] at first
        cases first
    | cons x rest =>
        cases rest with
        | nil =>
            rw [vars, List.mem_singleton] at first second
            cases first.trans second.symm
        | cons y rest =>
            have width := allocated.consistent.width_eq
              (vars ▸ List.mem_cons_of_mem _ List.mem_cons_self :
                y ∈ (init.insertAll crowded).rmap 32) first
            rw [sharing, vars, List.tail_cons, List.map_cons, List.mem_cons]
            exact .inl ((VarType.double_iff _).mpr width).symm
  have asked : .double ∈ allSharing (regNumber + 76 - 1) 1 (init.insertAll crowded) :=
    List.mem_flatMap.mpr ⟨32, List.mem_range'_1.mpr (by decide), shared⟩
  obtain ⟨r, free⟩ := room_double (room_of_splits allocated splits) asked
  have taken (w : Var) (s : Nat) (recorded : (w, s) ∈ crowded) : Apart r 2 s w.type.width :=
    free.apart allocated.consistent (member w s recorded)
  have range := free.placed.2
  rw [VarType.width_double rfl] at range
  obtain ⟨kind, even⟩ := free.suits
  unfold IsFloat regNumber at kind
  unfold regNumber at range
  have inside : r = 32 ∨ (∃ i < 15, r = 34 + 2 * i) ∨ ∃ i < 38, r = 72 + 2 * i := by
    by_cases low : r = 32
    · exact .inl low
    · rcases kind with kind | kind
      · exact .inr (.inl ⟨(r - 34) / 2, by omega, by omega⟩)
      · exact .inr (.inr ⟨(r - 72) / 2, by omega, by omega⟩)
  rcases inside with rfl | ⟨i, below, rfl⟩ | ⟨i, below, rfl⟩
  · have apart := taken ⟨.double, 0⟩ 32 (by decide)
    have width : VarType.double.width = 2 := rfl
    unfold Apart at apart
    dsimp only at apart
    omega
  · rcases taken ⟨.float, 4 + i⟩ (34 + 2 * i) (by
      simp only [crowded, List.mem_append, List.mem_map, List.mem_range]
      exact .inl (.inr ⟨i, below, rfl⟩)) with apart | apart
    · omega
    · have width : VarType.float.width = 1 := rfl
      dsimp only at apart
      omega
  · rcases taken ⟨.int, 19 + i⟩ (72 + 2 * i) (by
      simp only [crowded, List.mem_append, List.mem_map, List.mem_range]
      exact .inr ⟨i, below, rfl⟩) with apart | apart
    · omega
    · have width : VarType.int.width = 1 := rfl
      dsimp only at apart
      omega

end AllocStat

end LaTTe.Registers
