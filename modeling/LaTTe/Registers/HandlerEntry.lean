import LaTTe.Data.Loop
import LaTTe.Registers.Split
import LaTTe.Registers.VariableMap

namespace LaTTe.Registers

open LaTTe.Data (foldlM_run foldlM_prefix)

/-! The places of the variables at the entry of an exception handler. -/

structure EntryInfo extends TranslationInfo where
  genMap : Nat → Nat
  localNO : Nat
  returnStackTop : Option Nat

def EntryInfo.site (info : EntryInfo) (numLocals numStacks : Nat) : Site :=
  ⟨numLocals, numStacks, info.callerLocalNO, info.callerStackNO, info.localNO⟩

namespace AllocStat

/-- `AllocStat_Insert`, which is `none` for a place behind the arrays. -/
def insertInside (numVars : Nat) (h : AllocStat) (v : Var) (r : Nat) : Option AllocStat :=
  if 0 < r ∧ r + v.type.width ≤ regNumber + numVars then some (h.insert v r) else none

/-- The loop over `left` words from `i` on; the word behind a double is skipped. -/
def precolorRecorded (numVars : Nat) (words : Nat → Nat) (number : Nat → Nat) :
    (left i : Nat) → (skip : Bool) → AllocStat → Option AllocStat
  | 0, _, _, h => some h
  | left + 1, i, true, h => precolorRecorded numVars words number left (i + 1) false h
  | left + 1, i, false, h =>
      match recorded (words i) with
      | none => precolorRecorded numVars words number left (i + 1) false h
      | some (type, reg) => do
          let h ← h.insertInside numVars ⟨type, number i⟩ reg
          precolorRecorded numVars words number left (i + 1) (type = .double) h

/-- The variable that leaves the place of a local: the one with the number `i` or, when it is
not there, the last one.  The numbers of the locals themselves begin at `callerLocalNO`. -/
def splitVar (callerLocalNO : Nat) (h : AllocStat) (i : Nat) : Option Var :=
  (h.map (i + callerLocalNO)).bind fun r =>
    if 1 < h.refcount r then
      let vars := (List.range (h.refcount r)).filterMap (h.findRMap r)
      (vars.find? (·.number = i)).or vars.getLast?
    else none

def findEntryPlace (numVars : Nat) (h : AllocStat) (type : VarType) : Option Nat :=
  (h.findFreeNonCallerSaveReg type).or (findFreeSpill numVars h type)

def splitLocal (numVars callerLocalNO : Nat) (h : AllocStat) (i : Nat) : Option AllocStat :=
  match splitVar callerLocalNO h i with
  | none => some h
  | some v => do
      let newR ← findEntryPlace numVars h v.type
      let h ← h.erase v
      h.insertInside numVars v newR

/-- `exception_return_var`. -/
def exceptionReturnVars (info : EntryInfo) (numLocals : Nat) : List Var :=
  match info.returnStackTop.bind fun top =>
      (recorded (info.retMap (top + info.callerLocalNO))).map fun (type, _) => (type, top) with
  | none => []
  | some (type, top) =>
      ⟨type, numLocals + top⟩ ::
        if type = .long then [⟨.ivoid, numLocals + (top + 1)⟩] else []

def precolorForExceptionHandlerEntry (info : EntryInfo) (numLocals numStacks : Nat) :
    Option (AllocStat × List Var) := do
  let numVars := numLocals + numStacks + maxTempVar
  let h ← precolorRecorded numVars info.genMap (fun i => i) info.callerLocalNO 0 false init
  let h ← precolorRecorded numVars (fun i => info.genMap (i + info.callerLocalNO))
    (fun i => i + info.callerLocalNO) info.localNO 0 false h
  let h ← precolorRecorded numVars
    (fun i => info.genMap (i + (info.callerLocalNO + info.localNO))) (fun i => i + numLocals)
    info.callerStackNO 0 false h
  let h ← (if info.returnAddr ≠ 0 then
      precolorRecorded numVars
        (fun i => info.genMap (i + (info.callerLocalNO + info.localNO + info.callerStackNO)))
        (fun i => i + (numLocals + numStacks)) maxTempVar 0 false h
    else some h)
  let h ← (List.range info.localNO).foldlM (splitLocal numVars info.callerLocalNO) h
  let reserve (r : Nat) : Nat := if r = 14 ∨ r = 15 ∨ r = 30 ∨ r = 31 then 1 else h.refcount r
  some ({ h with refcount := reserve }, exceptionReturnVars info numLocals)

/-! What it is for. -/

def entryVars (info : EntryInfo) (numLocals numStacks : Nat) : List (Var × Nat) :=
  let site := info.site numLocals numStacks
  (List.range (site.wordNO + if info.returnAddr ≠ 0 then maxTempVar else 0)).filterMap fun vi =>
    (recorded (info.genMap vi)).map fun (type, r) => (⟨type, site.number vi⟩, r)

/-- Every variable has a place in range, and where two of them overlap they were in one place
when the map was recorded. -/
def Coloured (info : EntryInfo) (numLocals numStacks : Nat) : Prop :=
  ∃ h vars, precolorForExceptionHandlerEntry info numLocals numStacks = some (h, vars) ∧
    (∀ p ∈ entryVars info numLocals numStacks, ∃ r, h.find p.1 = some r ∧
      InGraph (info.site numLocals numStacks).numVars p.1 r) ∧
    ∀ p ∈ entryVars info numLocals numStacks, ∀ q ∈ entryVars info numLocals numStacks, p ≠ q →
      ∀ r s, h.find p.1 = some r → h.find q.1 = some s →
        Apart r p.1.type.width s q.1.type.width ∨ p.2 = q.2

def leaving (callerLocalNO : Nat) : List Nat → AllocStat → List VarType
  | [], _ => []
  | i :: rest, h =>
      match splitVar callerLocalNO h i with
      | none => leaving callerLocalNO rest h
      | some v => v.type :: leaving callerLocalNO rest ((h.erase v).getD h)

def EntryRoom (numVars : Nat) : List VarType → AllocStat → Prop
  | [], _ => True
  | type :: rest, h =>
      ∃ r, findEntryPlace numVars h type = some r ∧ EntryRoom numVars rest (h.occupy type r)

section

variable {numVars : Nat} {reserved : Nat → Bool} {g h h' k : AllocStat} {v w : Var}
  {r s newR : Nat} {type : VarType} {info : EntryInfo} {siteLocals siteStacks : Nat}
  {numLocals numStacks callerLocalNO : Nat}

/-! The loops over the map. -/

def insertAllInside (numVars : Nat) (vars : List (Var × Nat)) (h : AllocStat) :
    Option AllocStat :=
  vars.foldlM (fun h p => h.insertInside numVars p.1 p.2) h

theorem precolorRecorded_eq (words : Nat → Nat) (number : Nat → Nat) (left i : Nat)
    (skip : Bool) (h : AllocStat) :
    precolorRecorded numVars words number left i skip h =
      h.insertAllInside numVars (recordedVars words number left i skip) := by
  induction left generalizing i skip h with
  | zero => rfl
  | succ left ih =>
      cases skip with
      | true => exact ih (i + 1) false h
      | false =>
          rw [precolorRecorded, recordedVars]
          cases recorded (words i) with
          | none => exact ih (i + 1) false h
          | some entry =>
              obtain ⟨type, r⟩ := entry
              rw [insertAllInside, List.foldlM_cons]
              exact Option.bind_congr fun h _ => ih (i + 1) _ h

theorem insertAllInside_iff (vars : List (Var × Nat)) (h : AllocStat) :
    h.insertAllInside numVars vars = some h' ↔
      (∀ p ∈ vars, InGraph numVars p.1 p.2) ∧ h.insertAll vars = h' := by
  induction vars generalizing h with
  | nil => simp [insertAllInside, insertAll]
  | cons p rest ih =>
      obtain ⟨v, r⟩ := p
      rw [insertAllInside, List.foldlM_cons, Option.bind_eq_bind, Option.bind_eq_some_iff,
        List.forall_mem_cons]
      change (∃ h₁, h.insertInside numVars v r = some h₁ ∧ _) ↔ _
      by_cases inside : InGraph numVars v r
      · have inserted : h.insertInside numVars v r = some (h.insert v r) := if_pos inside
        rw [inserted, and_iff_right inside]
        constructor
        · rintro ⟨h₁, same, done⟩
          cases same
          exact (ih _).mp done
        · exact fun done => ⟨_, rfl, (ih _).mpr done⟩
      · have outside : h.insertInside numVars v r = none := if_neg inside
        rw [outside]
        constructor
        · rintro ⟨h₁, none, _⟩
          cases none
        · exact fun done => absurd done.1.1 inside

def entryVar (info : EntryInfo) (site : Site) (vi : Nat) : Option (Var × Nat) :=
  (recorded (info.genMap vi)).map fun (type, r) => (⟨type, site.number vi⟩, r)

theorem recordedVars_part {site : Site} (site' : Site) (start : Nat)
    (recordedFrom : RecordedFrom g reserved site info.genMap) {number : Nat → Nat}
    {count : Nat} (inside : start + count ≤ site.wordNO + maxTempVar)
    (numbers : ∀ i < count, site'.number (start + i) = number i) :
    recordedVars (fun i => info.genMap (i + start)) number count 0 false =
      ((List.range count).map (start + ·)).filterMap (entryVar info site') := by
  rw [recordedVars_eq ?_ (by nofun), List.filterMap_map, List.range_eq_range']
  · refine List.filterMap_congr fun i member => ?_
    have below := (List.mem_range'_1.mp member).2
    rw [Nat.zero_add] at below
    change _ = entryVar info site' (start + i)
    rw [entryVar, numbers i below, Nat.add_comm start i]
  · intro j r _ below found
    rw [Nat.add_right_comm]
    exact recordedFrom.behind (by omega) found

theorem insertAllInside_append (vars vars' : List (Var × Nat)) (h : AllocStat) :
    h.insertAllInside numVars (vars ++ vars') =
      (h.insertAllInside numVars vars).bind (insertAllInside numVars vars') := by
  rw [insertAllInside, List.foldlM_append]
  rfl

/-- The loops over the parts of the map are one over the variables that it has. -/
theorem precolor_eq (recordedFrom : RecordedFrom g reserved (info.site siteLocals siteStacks)
    info.genMap) :
    precolorForExceptionHandlerEntry info numLocals numStacks =
      ((init.insertAllInside (info.site numLocals numStacks).numVars
          (entryVars info numLocals numStacks)).bind fun h =>
        ((List.range info.localNO).foldlM
          (splitLocal (info.site numLocals numStacks).numVars info.callerLocalNO) h).map fun h =>
            ({ h with refcount := fun r =>
                if r = 14 ∨ r = 15 ∨ r = 30 ∨ r = 31 then 1 else h.refcount r },
              exceptionReturnVars info numLocals)) := by
  have words : (info.site siteLocals siteStacks).wordNO =
      info.callerLocalNO + info.localNO + info.callerStackNO := rfl
  have words' : (info.site numLocals numStacks).wordNO =
      info.callerLocalNO + info.localNO + info.callerStackNO := rfl
  have number (vi : Nat) : (info.site numLocals numStacks).number vi =
      if vi < info.callerLocalNO + info.localNO then vi
      else if vi < info.callerLocalNO + info.localNO + info.callerStackNO then
        vi - (info.callerLocalNO + info.localNO) + numLocals
      else vi - (info.callerLocalNO + info.localNO + info.callerStackNO) +
        (numLocals + numStacks) := rfl
  have callers : recordedVars info.genMap (fun i => i) info.callerLocalNO 0 false = _ :=
    recordedVars_part (info.site numLocals numStacks) 0 recordedFrom (by omega)
      fun i below => by rw [number]; split_ifs <;> omega
  have locals : recordedVars (fun i => info.genMap (i + info.callerLocalNO))
      (fun i => i + info.callerLocalNO) info.localNO 0 false = _ :=
    recordedVars_part (info.site numLocals numStacks) _ recordedFrom (by omega)
      fun i below => by rw [number]; split_ifs <;> omega
  have stackVars : recordedVars (fun i => info.genMap (i + (info.callerLocalNO + info.localNO)))
      (fun i => i + numLocals) info.callerStackNO 0 false = _ :=
    recordedVars_part (info.site numLocals numStacks) _ recordedFrom (by omega)
      fun i below => by rw [number]; split_ifs <;> omega
  have temps : recordedVars
      (fun i => info.genMap (i + (info.callerLocalNO + info.localNO + info.callerStackNO)))
      (fun i => i + (numLocals + numStacks)) maxTempVar 0 false = _ :=
    recordedVars_part (info.site numLocals numStacks) _ recordedFrom (by omega)
      fun i below => by rw [number]; split_ifs <;> omega
  have all (count : Nat) : (List.range ((info.site numLocals numStacks).wordNO + count)).filterMap
      (entryVar info (info.site numLocals numStacks)) =
      recordedVars info.genMap (fun i => i) info.callerLocalNO 0 false ++
      recordedVars (fun i => info.genMap (i + info.callerLocalNO))
        (fun i => i + info.callerLocalNO) info.localNO 0 false ++
      recordedVars (fun i => info.genMap (i + (info.callerLocalNO + info.localNO)))
        (fun i => i + numLocals) info.callerStackNO 0 false ++
      ((List.range count).map ((info.site numLocals numStacks).wordNO + ·)).filterMap
        (entryVar info (info.site numLocals numStacks)) := by
    rw [callers, locals, stackVars, List.range_add, Site.wordNO, List.range_add, List.range_add]
    simp only [List.filterMap_append, Nat.zero_add, List.map_id']
    rfl
  have vars : entryVars info numLocals numStacks =
      (List.range ((info.site numLocals numStacks).wordNO +
        if info.returnAddr ≠ 0 then maxTempVar else 0)).filterMap
          (entryVar info (info.site numLocals numStacks)) := rfl
  unfold precolorForExceptionHandlerEntry
  simp only [precolorRecorded_eq, Option.bind_eq_bind, Option.map_eq_bind]
  by_cases returns : info.returnAddr ≠ 0
  · rw [if_pos returns, all, words', ← temps] at vars
    rw [vars]
    simp only [if_pos returns, insertAllInside_append, Option.bind_assoc]
    rfl
  · rw [if_neg returns, all] at vars
    rw [vars]
    simp only [if_neg returns, insertAllInside_append, Option.bind_assoc, List.range_zero,
      List.map_nil, List.filterMap_nil, Option.bind_some]
    rfl

/-! The variables of the map fit together in the handler's graph. -/

theorem mem_entryVars {p : Var × Nat} (member : p ∈ entryVars info numLocals numStacks) :
    ∃ vi < (info.site numLocals numStacks).wordNO + maxTempVar,
      entryVar info (info.site numLocals numStacks) vi = some p := by
  obtain ⟨vi, below, found⟩ := List.mem_filterMap.mp member
  refine ⟨vi, ?_, found⟩
  have below := List.mem_range.mp below
  split at below <;> omega

theorem entryVar_eq {site : Site} {vi : Nat} {p : Var × Nat}
    (found : entryVar info site vi = some p) :
    recorded (info.genMap vi) = some (p.1.type, p.2) ∧ p.1.number = site.number vi := by
  obtain ⟨entry, known, rfl⟩ := Option.map_eq_some_iff.mp found
  exact ⟨known, rfl⟩

section

variable (recordedFrom : RecordedFrom g reserved (info.site siteLocals siteStacks) info.genMap)
  (sized : (info.site numLocals numStacks).Sized)

include recordedFrom sized

theorem entryVars_numbered {p : Var × Nat} (member : p ∈ entryVars info numLocals numStacks) :
    p.1.number + p.1.type.width ≤ (info.site numLocals numStacks).numVars := by
  obtain ⟨vi, below, found⟩ := mem_entryVars member
  obtain ⟨found, number⟩ := entryVar_eq found
  have last : (info.site numLocals numStacks).number
      ((info.site numLocals numStacks).wordNO + maxTempVar) =
        (info.site numLocals numStacks).numVars := by
    unfold Site.number Site.numVars Site.wordNO
    split_ifs <;> omega
  rw [number, ← last]
  by_cases double : p.1.type = .double
  · rw [double] at found
    obtain ⟨v, tells⟩ := recordedFrom.tells below found
    have next := recordedFrom.number_succ below found (info.site numLocals numStacks)
      ⟨rfl, rfl, rfl⟩
    have numbered := recordedFrom.allocated.consistent.numbered _ v tells.member
    rw [tells.number, tells.width, VarType.width_double rfl] at numbered
    rw [VarType.width_double double]
    have more : vi + 1 < (info.site numLocals numStacks).wordNO + maxTempVar := by
      by_contra last
      have more : ¬ vi < (info.site siteLocals siteStacks).wordNO := by
        change ¬ vi < (info.site numLocals numStacks).wordNO
        unfold maxTempVar at last
        omega
      have words : (info.site siteLocals siteStacks).wordNO =
        (info.site numLocals numStacks).wordNO := rfl
      have later : ¬ vi < (info.site siteLocals siteStacks).callerLocalNO +
          (info.site siteLocals siteStacks).localNO := by
        unfold Site.wordNO at more
        omega
      rw [Site.number, if_neg later, if_neg more, Site.numVars] at numbered
      omega
    have := sized.number_lt more
    omega
  · rw [VarType.width_single double]
    exact sized.number_lt below

theorem entryVars_compatible :
    (entryVars info numLocals numStacks).Pairwise fun p q => Compatible p.1 p.2 q.1 q.2 := by
  have consistent := recordedFrom.allocated.consistent
  refine List.Pairwise.filterMap _ ?_ (List.pairwise_lt_range.imp_of_mem
    fun {i j} _ below before => And.intro before (List.mem_range.mp below))
  intro vi vj ⟨before, below⟩ p found q found'
  have below : vj < (info.site siteLocals siteStacks).wordNO + maxTempVar := by
    change vj < (info.site siteLocals siteStacks).wordNO + _ at below
    split at below <;> omega
  obtain ⟨found, number⟩ := entryVar_eq found
  obtain ⟨found', number'⟩ := entryVar_eq found'
  obtain ⟨v, tells⟩ := recordedFrom.tells (before.trans below) found
  obtain ⟨w, tells'⟩ := recordedFrom.tells below found'
  refine ⟨.inl ?_, ?_⟩
  · rw [number, number']
    by_cases double : p.1.type = .double
    · rw [double] at found
      have next := recordedFrom.number_succ (before.trans below) found
        (info.site numLocals numStacks) ⟨rfl, rfl, rfl⟩
      have apart : vj ≠ vi + 1 := by
        rintro rfl
        rw [recordedFrom.behind below found] at found'
        cases found'
      have later := sized.number_lt (show vi + 1 < vj by omega)
      rw [VarType.width_double double]
      omega
    · rw [VarType.width_single double]
      exact sized.number_lt before
  · rw [← tells.width, ← tells'.width]
    exact consistent.shared p.2 v tells.member q.2 w tells'.member

theorem entryVars_wellRecorded
    (inside : ∀ p ∈ entryVars info numLocals numStacks,
      InGraph (info.site numLocals numStacks).numVars p.1 p.2) :
    WellRecorded (info.site numLocals numStacks).numVars
      (entryVars info numLocals numStacks) where
  placed p member := by
    obtain ⟨vi, below, found⟩ := mem_entryVars member
    obtain ⟨v, tells⟩ := recordedFrom.tells below (entryVar_eq found).1
    exact ⟨inside p member, entryVars_numbered recordedFrom sized member, tells.suits,
      tells.available⟩
  compatible := entryVars_compatible recordedFrom sized

end

/-! One local after another. -/

theorem findFreeReg_of_nonCallerSave (found : h.findFreeNonCallerSaveReg type = some r) :
    h.findFreeReg type = some r := by
  unfold findFreeNonCallerSaveReg at found
  unfold findFreeReg
  cases type with
  | int | long | ref | ivoid =>
      dsimp only at found ⊢
      rw [List.find?_append, found]
      rfl
  | cc | float | double | fvoid => cases found

theorem findEntryPlace_free (known : type ≠ .cc ∧ type ≠ .fvoid)
    (found : findEntryPlace numVars h type = some r) : FreePlace numVars h type r := by
  rcases Option.or_eq_some_iff.mp found with found | ⟨_, found⟩
  · exact (findFreeReg_free known (findFreeReg_of_nonCallerSave found)).2
  · exact (findFreeSpill_free known found).2

theorem findEntryPlace_congr (same : ∀ s, h.refcount s = 0 ↔ h'.refcount s = 0) :
    findEntryPlace numVars h type = findEntryPlace numVars h' type := by
  have register : h.findFreeNonCallerSaveReg type = h'.findFreeNonCallerSaveReg type := by
    unfold findFreeNonCallerSaveReg
    cases type with
    | int | long | ref | ivoid => simp only [(free_congr same).1]
    | cc | float | double | fvoid => rfl
  rw [findEntryPlace, findEntryPlace, register, findFreeSpill_congr same]

theorem entryRoom_congr {types : List VarType}
    (same : ∀ s, h.refcount s = 0 ↔ h'.refcount s = 0) :
    EntryRoom numVars types h ↔ EntryRoom numVars types h' := by
  induction types generalizing h h' with
  | nil => rfl
  | cons type rest ih =>
      unfold EntryRoom
      refine exists_congr fun r => ?_
      rw [findEntryPlace_congr same]
      refine and_congr_right fun _ => ih fun s => ?_
      have := same s
      change countUp _ _ _ s = 0 ↔ countUp _ _ _ s = 0
      rw [countUp_apply, countUp_apply]
      omega

theorem all_read (vars : List Var) :
    (List.range vars.length).filterMap (vars[·]?) = vars := by
  induction vars with
  | nil => rfl
  | cons first rest ih =>
      rw [List.length_cons, List.range_succ_eq_map, List.filterMap_cons, List.filterMap_map]
      exact congrArg (first :: ·) ih

theorem splitVar_eq (consistent : Consistent numVars reserved h) (i : Nat) :
    splitVar callerLocalNO h i = (h.map (i + callerLocalNO)).bind fun r =>
      if 1 < (h.rmap r).length then
        ((h.rmap r).find? (·.number = i)).or (h.rmap r).getLast?
      else none := by
  unfold splitVar
  refine Option.bind_congr fun r found => ?_
  obtain ⟨v, member, _⟩ := (consistent.map _ _).mp found
  rw [consistent.refcount_of_mem member]
  by_cases several : 1 < (h.rmap r).length
  · have all : (List.range (h.rmap r).length).filterMap (h.findRMap r) = h.rmap r := by
      have counted := consistent.refcount_of_mem member
      have each (j : Nat) : h.findRMap r j = (h.rmap r)[j]? := by
        unfold findRMap
        rw [counted]
        split <;> first | rfl | omega
      exact (List.filterMap_congr fun j _ => each j).trans (all_read _)
    rw [if_pos several, if_pos several, all]
  · rw [if_neg several, if_neg several]

theorem splitVar_some (consistent : Consistent numVars reserved h) {i : Nat}
    (found : splitVar callerLocalNO h i = some v) :
    ∃ r, v ∈ h.rmap r ∧ 1 < (h.rmap r).length := by
  rw [splitVar_eq consistent] at found
  obtain ⟨r, _, found⟩ := Option.bind_eq_some_iff.mp found
  by_cases several : 1 < (h.rmap r).length
  · rw [if_pos several] at found
    refine ⟨r, ?_, several⟩
    rcases Option.or_eq_some_iff.mp found with found | ⟨_, found⟩
    · exact List.mem_of_find?_eq_some found
    · exact List.mem_of_getLast? found
  · rw [if_neg several] at found
    cases found

theorem splitVar_exists (consistent : Consistent numVars reserved h) {i : Nat}
    (member : v ∈ h.rmap r) (number : v.number = i + callerLocalNO)
    (several : 1 < (h.rmap r).length) :
    ∃ w ∈ h.rmap r, splitVar callerLocalNO h i = some w := by
  have mapped : h.map (i + callerLocalNO) = some r :=
    (consistent.map _ _).mpr ⟨v, member, number⟩
  rw [splitVar_eq consistent, mapped, Option.bind_some, if_pos several]
  cases found : (h.rmap r).find? (·.number = i) with
  | some w => exact ⟨w, List.mem_of_find?_eq_some found, rfl⟩
  | none =>
      have occupied : h.rmap r ≠ [] := List.ne_nil_of_mem member
      exact ⟨_, List.getLast_mem occupied, List.getLast?_eq_some_getLast occupied⟩

theorem splitLocal_none {i : Nat} (found : splitVar callerLocalNO h i = none) :
    splitLocal numVars callerLocalNO h i = some h := by
  unfold splitLocal
  rw [found]

theorem splitLocal_eq (allocated : h.Allocated numVars reserved) {i : Nat}
    (found : splitVar callerLocalNO h i = some v) (member : v ∈ h.rmap r) :
    splitLocal numVars callerLocalNO h i =
      (findEntryPlace numVars h v.type).map fun newR => (h.without v r).withVar v newR := by
  have consistent := allocated.consistent
  have mapped : h.map v.number = some r := (consistent.map _ _).mpr ⟨v, member, rfl⟩
  unfold splitLocal
  rw [found, Option.map_eq_bind]
  refine Option.bind_congr fun newR place => ?_
  have free := findEntryPlace_free (allocated.typed r v member).known place
  have inside : 0 < newR ∧ newR + v.type.width ≤ regNumber + numVars := free.placed
  rw [erase_eq, mapped, Option.map_some, Option.bind_eq_bind, Option.bind_some, insertInside,
    if_pos inside, insert_eq (consistent.without member rfl), map_without consistent member rfl]
  rfl

/-! All of the locals. -/

/-- `k` is `h` without the variables that have left their places. -/
def Shadows (k h : AllocStat) : Prop :=
  ∀ r, k.rmap r = h.rmap r ∨ k.rmap r = [] ∧ (h.rmap r).length ≤ 1

section

variable (consistent : Consistent numVars reserved h) (consistent' : Consistent numVars reserved k)
  (shadows : Shadows k h)

include consistent consistent' shadows

theorem map_of_shadows {n : Nat}
    (found : k.map n = some r) : h.map n = some r ∧ k.rmap r = h.rmap r := by
  obtain ⟨v, member, rfl⟩ := (consistent'.map _ _).mp found
  rcases shadows r with same | ⟨empty, _⟩
  · exact ⟨(consistent.map _ _).mpr ⟨v, same ▸ member, rfl⟩, same⟩
  · rw [empty] at member
    cases member

theorem splitVar_of_shadows (i : Nat) :
    splitVar callerLocalNO k i = splitVar callerLocalNO h i := by
  rw [splitVar_eq consistent, splitVar_eq consistent']
  cases found : k.map (i + callerLocalNO) with
  | some r =>
      obtain ⟨found', same⟩ := map_of_shadows consistent consistent' shadows found
      rw [found', Option.bind_some, Option.bind_some, same]
  | none =>
      cases found' : h.map (i + callerLocalNO) with
      | none => rfl
      | some r =>
          obtain ⟨v, member, number⟩ := (consistent.map _ _).mp found'
          rcases shadows r with same | ⟨_, alone⟩
          · exact absurd number (consistent'.map_eq_none.mp found r v (same ▸ member))
          · exact (if_neg (Nat.not_lt.mpr alone)).symm

theorem Shadows.moved (member : v ∈ h.rmap r) (member' : v ∈ k.rmap r) (free : h.refcount newR = 0)
    (away : newR ≠ r) : Shadows (k.without v r) ((h.without v r).withVar v newR) := by
  have empty := consistent.rmap_eq_nil free
  intro s
  rw [withVar_eq (consistent.without member rfl), without, without,
    removeRMap_eq consistent member rfl, removeRMap_eq consistent' member' rfl]
  dsimp only
  by_cases new : s = newR
  · subst new
    refine .inr ⟨?_, ?_⟩
    · rw [Function.update_of_ne away]
      rcases shadows s with same | ⟨none, _⟩
      · rw [same, empty]
      · exact none
    · rw [Function.update_self, Function.update_of_ne away, empty]
      exact le_rfl
  · rw [Function.update_of_ne new]
    by_cases here : s = r
    · subst here
      rw [Function.update_self, Function.update_self]
      rcases shadows s with same | ⟨none, _⟩
      · exact .inl (by rw [same])
      · rw [none] at member'
        cases member'
    · rw [Function.update_of_ne here, Function.update_of_ne here]
      exact shadows s

end

theorem moved_refcount (consistent : Consistent numVars reserved h) (member : v ∈ h.rmap r)
    (newR : Nat) : ((h.without v r).withVar v newR).refcount =
      countUp (countDown h.refcount (some v.type) r) v.type newR := by
  rw [withVar_eq (consistent.without member rfl), without, removeRMap_eq consistent member rfl]

theorem splitLocals_isSome_iff {locals : List Nat}
    (allocated : h.Allocated numVars reserved) (consistent' : Consistent numVars reserved k)
    (shadows : Shadows k h) :
    (∃ h', locals.foldlM (splitLocal numVars callerLocalNO) h = some h') ↔
      EntryRoom numVars (leaving callerLocalNO locals k) h := by
  have consistent := allocated.consistent
  induction locals generalizing h k with
  | nil => exact ⟨fun _ => trivial, fun _ => ⟨h, rfl⟩⟩
  | cons i rest ih =>
      have same : splitVar callerLocalNO k i = splitVar callerLocalNO h i :=
        splitVar_of_shadows consistent consistent' shadows i
      rw [List.foldlM_cons, leaving, same]
      cases found : splitVar callerLocalNO h i with
      | none =>
          rw [splitLocal_none found]
          exact ih allocated consistent' shadows consistent
      | some v =>
          obtain ⟨r, member, several⟩ := splitVar_some consistent found
          obtain ⟨r', member', _⟩ := splitVar_some consistent' (same.trans found)
          obtain rfl : r = r' := by
            rcases shadows r' with equal | ⟨none, _⟩
            · exact (consistent.unique member (equal ▸ member') rfl).1
            · rw [none] at member'
              cases member'
          have mapped : k.map v.number = some r := (consistent'.map _ _).mpr ⟨v, member', rfl⟩
          rw [splitLocal_eq allocated found member]
          dsimp only
          rw [erase_eq, mapped, Option.map_some, Option.getD_some]
          have next {newR : Nat} (place : findEntryPlace numVars h v.type = some newR) :
              (∃ h', rest.foldlM (splitLocal numVars callerLocalNO)
                ((h.without v r).withVar v newR) = some h') ↔
              EntryRoom numVars (leaving callerLocalNO rest (k.without v r))
                (h.occupy v.type newR) := by
            have free := findEntryPlace_free (allocated.typed r v member).known place
            have empty : h.refcount newR = 0 := free.free 0 v.type.width_pos
            have allocated₁ := (allocated.moved member free).1
            have shadows₁ := shadows.moved consistent consistent' member member' empty
              (free.ne consistent member)
            have zeros := (counts_of_moved consistent member several free
              (moved_refcount consistent member newR)).1
            rw [← entryRoom_congr zeros]
            exact ih allocated₁ (consistent'.without member' rfl) shadows₁ allocated₁.consistent
          constructor
          · rintro ⟨h', done⟩
            obtain ⟨h₁, step, done⟩ := Option.bind_eq_some_iff.mp done
            obtain ⟨newR, place, rfl⟩ := Option.map_eq_some_iff.mp step
            exact ⟨newR, place, (next place).mp ⟨h', done⟩⟩
          · rintro ⟨newR, place, room⟩
            obtain ⟨h', done⟩ := (next place).mpr room
            exact ⟨h', by rw [place]; exact done⟩

structure Parted (numVars : Nat) (reserved : Nat → Bool) (h h' : AllocStat) : Prop where
  allocated : h'.Allocated numVars reserved
  kept : ∀ r, ∀ v ∈ h.rmap r, ∃ s, v ∈ h'.rmap s
  together : ∀ s, ∀ v ∈ h'.rmap s, ∀ w ∈ h'.rmap s, v ≠ w → ∃ r, v ∈ h.rmap r ∧ w ∈ h.rmap r

theorem Parted.refl (allocated : h.Allocated numVars reserved) : Parted numVars reserved h h where
  allocated := allocated
  kept r _ member := ⟨r, member⟩
  together s _ member _ member' _ := ⟨s, member, member'⟩

theorem Parted.trans {h'' : AllocStat} (first : Parted numVars reserved h h')
    (second : Parted numVars reserved h' h'') : Parted numVars reserved h h'' where
  allocated := second.allocated
  kept r v member := by
    obtain ⟨s, member'⟩ := first.kept r v member
    exact second.kept s v member'
  together s v member w member' different := by
    obtain ⟨t, here, here'⟩ := second.together s v member w member' different
    exact first.together t v here w here' different

theorem splitLocal_parted (allocated : h.Allocated numVars reserved) {i : Nat}
    (done : splitLocal numVars callerLocalNO h i = some h') : Parted numVars reserved h h' := by
  have consistent := allocated.consistent
  cases found : splitVar callerLocalNO h i with
  | none =>
      cases (splitLocal_none found).symm.trans done
      exact .refl allocated
  | some v =>
      obtain ⟨r, member, _⟩ := splitVar_some consistent found
      rw [splitLocal_eq allocated found member] at done
      obtain ⟨newR, place, rfl⟩ := Option.map_eq_some_iff.mp done
      have free := findEntryPlace_free (allocated.typed r v member).known place
      have empty := consistent.rmap_eq_nil (free.free 0 v.type.width_pos)
      obtain ⟨allocated', members⟩ := allocated.moved member free
      refine ⟨allocated', fun s w inside => ?_, fun s w inside x inside' different => ?_⟩
      · by_cases same : w.number = v.number
        · obtain ⟨_, rfl⟩ := consistent.unique inside member same
          exact ⟨newR, (members w newR).mpr (.inr ⟨rfl, rfl⟩)⟩
        · exact ⟨s, (members w s).mpr (.inl ⟨inside, same⟩)⟩
      · rcases (members w s).mp inside with ⟨old, _⟩ | ⟨rfl, rfl⟩
        · rcases (members x s).mp inside' with ⟨old', _⟩ | ⟨rfl, rfl⟩
          · exact ⟨s, old, old'⟩
          · rw [Nat.add_zero] at empty
            rw [empty] at old
            cases old
        · rcases (members x s).mp inside' with ⟨old', _⟩ | ⟨_, rfl⟩
          · rw [Nat.add_zero] at empty
            rw [empty] at old'
            cases old'
          · exact absurd rfl different

theorem splitLocals_parted {locals : List Nat} (allocated : h.Allocated numVars reserved)
    (done : locals.foldlM (splitLocal numVars callerLocalNO) h = some h') :
    Parted numVars reserved h h' :=
  foldlM_run (fun _ h' => Parted numVars reserved h h')
    (fun _ _ _ _ _ _ parted step => parted.trans (splitLocal_parted parted.allocated step))
    (.refl allocated) done

/-! The entry of a handler. -/

section

variable (recordedFrom : RecordedFrom g reserved (info.site siteLocals siteStacks) info.genMap)
  (sized : (info.site numLocals numStacks).Sized)

include recordedFrom sized

theorem room_of_coloured (coloured : Coloured info numLocals numStacks) :
    (∀ p ∈ entryVars info numLocals numStacks,
      InGraph (info.site numLocals numStacks).numVars p.1 p.2) ∧
    EntryRoom (info.site numLocals numStacks).numVars
      (leaving info.callerLocalNO (List.range info.localNO)
        (init.insertAll (entryVars info numLocals numStacks)))
      (init.insertAll (entryVars info numLocals numStacks)) := by
  obtain ⟨h, vars, done, _⟩ := coloured
  rw [precolor_eq recordedFrom] at done
  obtain ⟨h₀, inserted, done⟩ := Option.bind_eq_some_iff.mp done
  obtain ⟨inside, rfl⟩ := (insertAllInside_iff _ _).mp inserted
  obtain ⟨h₁, split, _⟩ := Option.map_eq_some_iff.mp done
  have recorded := entryVars_wellRecorded recordedFrom sized inside
  have allocated := (allocated_init.insertAll recorded nofun).1
  exact ⟨inside, (splitLocals_isSome_iff allocated allocated.consistent fun _ => .inl rfl).mp
    ⟨h₁, split⟩⟩

theorem coloured_of_room
    (inside : ∀ p ∈ entryVars info numLocals numStacks,
      InGraph (info.site numLocals numStacks).numVars p.1 p.2)
    (room : EntryRoom (info.site numLocals numStacks).numVars
      (leaving info.callerLocalNO (List.range info.localNO)
        (init.insertAll (entryVars info numLocals numStacks)))
      (init.insertAll (entryVars info numLocals numStacks))) :
    Coloured info numLocals numStacks := by
  have recorded := entryVars_wellRecorded recordedFrom sized inside
  obtain ⟨allocated, members⟩ := allocated_init.insertAll recorded nofun
  have place (p : Var × Nat) (member : p ∈ entryVars info numLocals numStacks) :
      p.1 ∈ (init.insertAll (entryVars info numLocals numStacks)).rmap p.2 :=
    (members p.1 p.2).mpr (.inr member)
  obtain ⟨h₁, split⟩ :=
    (splitLocals_isSome_iff allocated allocated.consistent fun _ => .inl rfl).mpr room
  have parted := splitLocals_parted allocated split
  have consistent := parted.allocated.consistent
  have found (p : Var × Nat) (member : p ∈ entryVars info numLocals numStacks) :
      ∃ r, p.1 ∈ h₁.rmap r ∧ h₁.map p.1.number = some r := by
    obtain ⟨r, here⟩ := parted.kept p.2 p.1 (place p member)
    exact ⟨r, here, (consistent.map _ _).mpr ⟨p.1, here, rfl⟩⟩
  have done : precolorForExceptionHandlerEntry info numLocals numStacks = _ :=
    precolor_eq recordedFrom
  rw [(insertAllInside_iff _ _).mpr ⟨inside, rfl⟩, Option.bind_some, split,
    Option.map_some] at done
  refine ⟨_, _, done, fun p member => ?_, fun p member q member' different r s at_p at_q => ?_⟩
  · obtain ⟨r, here, mapped⟩ := found p member
    exact ⟨r, mapped, consistent.placed r p.1 here⟩
  · obtain ⟨r', here, mapped⟩ := found p member
    obtain ⟨s', here', mapped'⟩ := found q member'
    cases mapped.symm.trans at_p
    cases mapped'.symm.trans at_q
    rcases consistent.shared r p.1 here s q.1 here' with apart | ⟨rfl, _⟩
    · exact .inl apart
    · refine .inr ?_
      by_cases same : p.1 = q.1
      · exact (allocated.consistent.unique (place p member) (place q member')
          (congrArg Var.number same)).1
      · obtain ⟨t, first, second⟩ := parted.together r p.1 here q.1 here' same
        rw [(allocated.consistent.unique (place p member) first rfl).1,
          (allocated.consistent.unique (place q member') second rfl).1]

end

theorem Consistent.other_exists (consistent : Consistent numVars reserved h)
    (several : 1 < (h.rmap r).length) (v : Var) : ∃ w ∈ h.rmap r, v ≠ w := by
  by_contra alone
  push Not at alone
  have subset : h.rmap r ⊆ [v] := fun w member => List.mem_singleton.mpr (alone w member).symm
  have fewer := (List.subperm_of_subset (consistent.distinct r).of_map subset).length_le
  rw [List.length_singleton] at fewer
  omega

theorem entryRoom_of_singles (allocated : h.Allocated numVars fun _ => false)
    (singles : ∀ r, ∀ v ∈ h.rmap r, ∀ w ∈ h.rmap r, v ≠ w → v.type ≠ .double)
    (locals : List Nat) : EntryRoom numVars (leaving callerLocalNO locals h) h := by
  rw [← splitLocals_isSome_iff allocated allocated.consistent fun _ => .inl rfl]
  have loop : ∃ h', locals.foldlM (splitLocal numVars callerLocalNO) h = some h' ∧
      Parted numVars (fun _ => false) h h' := by
    refine foldlM_prefix (fun _ h' => Parted numVars (fun _ => false) h h') ?_ (.refl allocated)
    intro _ i _ h' _ parted
    have consistent := parted.allocated.consistent
    cases found : splitVar callerLocalNO h' i with
    | none => exact ⟨h', splitLocal_none found, parted⟩
    | some v =>
        obtain ⟨r, member, several⟩ := splitVar_some consistent found
        obtain ⟨w, other, different⟩ := consistent.other_exists several v
        obtain ⟨s, old, old'⟩ := parted.together r v member w other different
        have spill := parted.allocated.findFreeSpill_isSome (fun _ _ => rfl) member several
          (singles s v old w old' different)
        obtain ⟨newR, place⟩ : ∃ newR, findEntryPlace numVars h' v.type = some newR :=
          Option.isSome_iff_exists.mp (by
            rw [findEntryPlace, Option.isSome_or, spill, Bool.or_true])
        have step := splitLocal_eq parted.allocated found member
        rw [place, Option.map_some] at step
        exact ⟨_, step, parted.trans (splitLocal_parted parted.allocated step)⟩
  obtain ⟨h', run, _⟩ := loop
  exact ⟨h', run⟩

theorem entryVars_of_member
    (recordedFrom : RecordedFrom g reserved (info.site siteLocals siteStacks) info.genMap)
    {vi : Nat} (below : vi < (info.site numLocals numStacks).wordNO) (member : v ∈ g.rmap r)
    (number : v.number = (info.site siteLocals siteStacks).number vi) :
    ∃ type, type.width = v.type.width ∧
      (⟨type, (info.site numLocals numStacks).number vi⟩, r) ∈
        entryVars info numLocals numStacks := by
  have inside : vi < (info.site siteLocals siteStacks).wordNO + maxTempVar :=
    Nat.lt_add_right _ below
  cases head : (g.rmap r).head? with
  | none =>
      rw [List.head?_eq_none_iff.mp head] at member
      cases member
  | some first =>
      refine ⟨first.type, recordedFrom.allocated.consistent.width_eq
        (List.mem_of_head? head) member, List.mem_filterMap.mpr ⟨vi, List.mem_range.mpr ?_, ?_⟩⟩
      · exact Nat.lt_add_right _ below
      · rw [recordedFrom.map vi inside, recordVariableMap_eq,
          (recorded_recordWord recordedFrom.allocated recordedFrom.small).mpr
            ⟨v, member, number, by rw [head]; rfl⟩]
        rfl

end

/-- The handler's variables get proper places exactly when the recorded ones are in its graph and
those that leave a shared place find another. -/
theorem precolorForExceptionHandlerEntry_coloured_iff {g : AllocStat} {reserved : Nat → Bool}
    {info : EntryInfo} {siteLocals siteStacks numLocals numStacks : Nat}
    (recordedFrom : RecordedFrom g reserved (info.site siteLocals siteStacks) info.genMap)
    (sized : (info.site numLocals numStacks).Sized) :
    Coloured info numLocals numStacks ↔
      (∀ p ∈ entryVars info numLocals numStacks,
        InGraph (info.site numLocals numStacks).numVars p.1 p.2) ∧
      EntryRoom (info.site numLocals numStacks).numVars
        (leaving info.callerLocalNO (List.range info.localNO)
          (init.insertAll (entryVars info numLocals numStacks)))
        (init.insertAll (entryVars info numLocals numStacks)) :=
  ⟨room_of_coloured recordedFrom sized,
    fun ⟨inside, room⟩ => coloured_of_room recordedFrom sized inside room⟩

def entryInfo (g : AllocStat) (localNO : Nat) : EntryInfo where
  retMap _ := 0
  callerLocalNO := 0
  callerStackNO := 0
  returnAddr := 0
  genMap := g.recordVariableMap ⟨localNO, 1, 0, 0, localNO⟩
  localNO := localNO
  returnStackTop := none

theorem entryInfo_recordedFrom {vars : List (Var × Nat)} {localNO : Nat}
    (recorded : WellRecorded (localNO + 1 + maxTempVar) vars)
    (small : localNO + 1 + maxTempVar ≤ 2 ^ 18)
    (whole : ∀ p ∈ vars, p.1.type = .double → p.1.number + 1 ≠ localNO) :
    RecordedFrom (init.insertAll vars) (fun _ => false)
      ((entryInfo (init.insertAll vars) localNO).site localNO 1)
      (entryInfo (init.insertAll vars) localNO).genMap := by
  obtain ⟨allocated, members⟩ := allocated_init.insertAll recorded nofun
  refine ⟨allocated, ⟨le_of_eq (Nat.zero_add _), Nat.zero_le _⟩, small, ?_, fun vi _ => rfl⟩
  intro r v member double
  have apart := whole (v, r) (((members v r).mp member).resolve_left nofun) double
  exact ⟨by rw [EntryInfo.site, entryInfo, Nat.zero_add]; exact apart, apart⟩

theorem entryInfo_number {g : AllocStat} {localNO n : Nat} (below : n < localNO) :
    ((entryInfo g localNO).site localNO 1).number n = n := by
  have small : n < 0 + localNO := by omega
  exact if_pos small

theorem wellRecorded_twoLocals : WellRecorded (2 + 1 + maxTempVar) (integersIn 16) := by
  refine ⟨fun p member => ?_, List.pairwise_pair.mpr ⟨.inl (by decide), .inr ⟨rfl, rfl⟩⟩⟩
  simp only [integersIn, List.mem_cons, List.not_mem_nil, or_false] at member
  rcases member with rfl | rfl
  · exact ⟨by decide, by decide, by decide, by decide⟩
  · exact ⟨by decide, by decide, by decide, by decide⟩

theorem precolor_coloured_integers :
    Coloured (entryInfo (init.insertAll (integersIn 16)) 2) 2 1 := by
  have recordedFrom := entryInfo_recordedFrom wellRecorded_twoLocals (by decide) (by decide)
  have sized : ((entryInfo (init.insertAll (integersIn 16)) 2).site 2 1).Sized :=
    ⟨by decide, by decide⟩
  refine (precolorForExceptionHandlerEntry_coloured_iff recordedFrom sized).mpr ?_
  have vars : entryVars (entryInfo (init.insertAll (integersIn 16)) 2) 2 1 = integersIn 16 := by
    decide +kernel
  rw [vars]
  obtain ⟨allocated, members⟩ := allocated_init.insertAll wellRecorded_twoLocals nofun
  refine ⟨fun p member => (wellRecorded_twoLocals.placed p member).placed,
    entryRoom_of_singles allocated (fun r v member _ _ _ double => ?_) _⟩
  have integer : ∀ p ∈ integersIn 16, p.1.type = .int := by decide
  have member' := ((members v r).mp member).resolve_left nofun
  rw [integer _ member'] at double
  cases double

def fragmentedMap : List (Var × Nat) :=
  [(⟨.double, 0⟩, 32), (⟨.double, 2⟩, 32)] ++
    (List.range 80).map fun i => (⟨.int, 4 + i⟩, 72 + 2 * i)

theorem wellRecorded_fragmentedMap : WellRecorded (84 + 1 + maxTempVar) fragmentedMap := by
  have slots : ∀ p ∈ (List.range 80).map fun i => ((⟨.int, 4 + i⟩ : Var), 72 + 2 * i),
      ∃ i < 80, p = (⟨.int, 4 + i⟩, 72 + 2 * i) := by
    intro p member
    obtain ⟨i, below, rfl⟩ := List.mem_map.mp member
    exact ⟨i, List.mem_range.mp below, rfl⟩
  have width : VarType.int.width = 1 := rfl
  have width' : VarType.double.width = 2 := rfl
  constructor
  · intro p member
    rcases List.mem_append.mp member with double | single
    · simp only [List.mem_cons, List.not_mem_nil, or_false] at double
      rcases double with rfl | rfl
      · exact ⟨by decide, by decide, by decide, by decide⟩
      · exact ⟨by decide, by decide, by decide, by decide⟩
    · obtain ⟨i, below, rfl⟩ := slots p single
      refine ⟨⟨?_, ?_⟩, ?_, .inr ?_, isAvailable_iff.mpr ?_⟩
      · dsimp only
        omega
      · dsimp only
        rw [width, regNumber, maxTempVar]
        omega
      · dsimp only
        rw [width, maxTempVar]
        omega
      · dsimp only
        rw [regNumber]
        omega
      · dsimp only
        omega
  · refine List.pairwise_append.mpr ⟨List.pairwise_pair.mpr ⟨.inl (by decide), .inr ⟨rfl, rfl⟩⟩,
      List.pairwise_map.mpr ?_, ?_⟩
    · refine List.pairwise_lt_range.imp fun {i j} before => ⟨.inl ?_, .inl (.inl ?_)⟩
      · dsimp only
        omega
      · dsimp only
        omega
    · intro p double q single
      obtain ⟨i, below, rfl⟩ := slots q single
      simp only [List.mem_cons, List.not_mem_nil, or_false] at double
      rcases double with rfl | rfl
      · refine ⟨.inl ?_, .inl (.inl ?_)⟩ <;> dsimp only <;> omega
      · refine ⟨.inl ?_, .inl (.inl ?_)⟩ <;> dsimp only <;> omega

theorem leaves_of_coloured {g : AllocStat} {reserved : Nat → Bool} {info : EntryInfo}
    {siteLocals siteStacks numLocals numStacks : Nat}
    (recordedFrom : RecordedFrom g reserved (info.site siteLocals siteStacks) info.genMap)
    (sized : (info.site numLocals numStacks).Sized) (coloured : Coloured info numLocals numStacks) :
    ∃ h : AllocStat, Consistent (info.site numLocals numStacks).numVars (fun _ => false) h ∧
      (∀ vi < (info.site numLocals numStacks).wordNO, ∀ v r, v ∈ g.rmap r →
        v.number = (info.site siteLocals siteStacks).number vi →
        ∃ type, type.width = v.type.width ∧
          ⟨type, (info.site numLocals numStacks).number vi⟩ ∈ h.rmap r) ∧
      EntryRoom (info.site numLocals numStacks).numVars
        (leaving info.callerLocalNO (List.range info.localNO) h) h := by
  obtain ⟨inside, room⟩ := room_of_coloured recordedFrom sized coloured
  have recorded := entryVars_wellRecorded recordedFrom sized inside
  obtain ⟨allocated, members⟩ := allocated_init.insertAll recorded nofun
  refine ⟨_, allocated.consistent, fun vi below v r member number => ?_, room⟩
  obtain ⟨type, width, entry⟩ := entryVars_of_member recordedFrom below member number
  exact ⟨type, width, (members _ _).mpr (.inr entry)⟩

/-- The double that is to leave finds no pair of slots. -/
theorem precolor_not_coloured_fragmented :
    RecordedFrom (init.insertAll fragmentedMap) (fun _ => false)
        ((entryInfo (init.insertAll fragmentedMap) 84).site 84 1)
        (entryInfo (init.insertAll fragmentedMap) 84).genMap ∧
      ¬ Coloured (entryInfo (init.insertAll fragmentedMap) 84) 84 1 := by
  have recordedFrom := entryInfo_recordedFrom wellRecorded_fragmentedMap (by decide) (by
    intro p member double
    rcases List.mem_append.mp member with member | member
    · simp only [List.mem_cons, List.not_mem_nil, or_false] at member
      rcases member with rfl | rfl <;> decide
    · obtain ⟨i, _, rfl⟩ := List.mem_map.mp member
      cases double)
  refine ⟨recordedFrom, fun coloured => ?_⟩
  obtain ⟨h, consistent, read, room⟩ := leaves_of_coloured recordedFrom recordedFrom.sized coloured
  have known (v : Var) (r : Nat) (member : (v, r) ∈ fragmentedMap) (below : v.number < 84) :
      ∃ type, type.width = v.type.width ∧ (⟨type, v.number⟩ : Var) ∈ h.rmap r := by
    have inside := ((allocated_init.insertAll wellRecorded_fragmentedMap nofun).2 v r).mpr
      (.inr member)
    have same := entryInfo_number (g := init.insertAll fragmentedMap) below
    obtain ⟨type, width, entry⟩ := read v.number
      (Nat.lt_of_lt_of_le below (Nat.le_of_eq (Nat.zero_add 84).symm)) v r inside same.symm
    rw [same] at entry
    exact ⟨type, width, entry⟩
  obtain ⟨type, width, first⟩ := known ⟨.double, 0⟩ 32 (by decide) (by decide)
  obtain ⟨type', width', second⟩ := known ⟨.double, 2⟩ 32 (by decide) (by decide)
  have several : 1 < (h.rmap 32).length := by
    by_contra alone
    obtain ⟨v, vars⟩ : ∃ v, h.rmap 32 = [v] :=
      List.length_eq_one_iff.mp (by have := List.length_pos_of_mem first; omega)
    rw [vars, List.mem_singleton] at first second
    cases first.trans second.symm
  obtain ⟨v, member, leaves⟩ := splitVar_exists consistent first (Nat.zero_add 0).symm several
  have double : v.type = .double :=
    (VarType.double_iff _).mpr ((consistent.width_eq member first).trans width)
  obtain ⟨newR, place⟩ : ∃ newR, findFreeSpill (84 + 1 + maxTempVar) h .double = some newR := by
    change EntryRoom (84 + 1 + maxTempVar) (leaving 0 (List.range (83 + 1)) h) h at room
    rw [List.range_succ_eq_map, leaving, leaves] at room
    obtain ⟨newR, place, _⟩ := room
    rw [double] at place
    exact ⟨newR, ((Option.or_eq_some_iff.mp place).resolve_left nofun).2⟩
  obtain ⟨low, free⟩ := findFreeSpill_free (by decide) place
  have even := free.suits.2
  have range := free.placed.2
  rw [VarType.width_double rfl] at range
  unfold regNumber at low
  unfold regNumber maxTempVar at range
  obtain ⟨i, below, rfl⟩ : ∃ i < 80, newR = 72 + 2 * i := ⟨(newR - 72) / 2, by omega, by omega⟩
  obtain ⟨other, single, taken⟩ := known ⟨.int, 4 + i⟩ (72 + 2 * i)
    (List.mem_append_right _ (List.mem_map.mpr ⟨i, List.mem_range.mpr below, rfl⟩))
    (by dsimp only; omega)
  rcases free.apart consistent taken with apart | apart
  · rw [VarType.width_double rfl] at apart
    omega
  · have := other.width_pos
    dsimp only at apart
    omega

end AllocStat

end LaTTe.Registers
