import LaTTe.Translator.Loops.TablesFit

namespace LaTTe.Translator.Loops

/-! The room in the tables of a loop. -/

namespace MemTables

variable {tables : MemTables}

structure Fits (tables : MemTables) : Prop where
  instrs : tables.memInstrArray.length ≤ tables.maxNumMemInstr
  iterator : tables.memExprHashTableIterator.length ≤ tables.maxNumMemInstr

theorem memExprHashFind_returns_iff {field1 field2 : BitVec 32} :
    (∃ fuel hashVal, tables.memExprHashFind fuel field1 field2 = some hashVal) ↔
      tables.Finds (field1, field2) := by
  constructor
  · intro ⟨fuel, _, returned⟩
    obtain ⟨i, found, _⟩ := Option.bind_eq_some_iff.mp returned
    exact ⟨fuel, i, found⟩
  · intro ⟨fuel, i, found⟩
    exact ⟨fuel, _, Option.bind_eq_some_iff.mpr ⟨i, found, rfl⟩⟩

theorem card_keys_le (accesses : List Access) : (keys accesses).card ≤ accesses.length :=
  calc (keys accesses).card ≤ (accesses.map Access.key).toFinset.card := Finset.card_filter_le _ _
    _ ≤ (accesses.map Access.key).length := List.toFinset_card_le _
    _ = accesses.length := List.length_map _

theorem Entered.fits_iff {room : Nat} {accesses : List Access}
    (entered : tables.Entered room accesses) : tables.Fits ↔ accesses.length ≤ room := by
  constructor
  · intro fits
    rw [← entered.instrs, ← entered.room_eq]
    exact fits.instrs
  · intro few
    constructor
    · rwa [entered.instrs, entered.room_eq]
    · rw [entered.room_eq]
      exact entered.few.trans few

end MemTables

namespace Body

open MemTables

variable {body : Body} {code : Reg → BitVec 32}
variable {getOrg : Nat → Nat → Finset Nat → Option (Option Reg × Finset Nat)}

theorem initMemInstrArray_succ (fuel turns : Nat) :
    body.initMemInstrArray code getOrg fuel (turns + 1) =
      (body.initMemInstrArray code getOrg fuel turns).bind fun tables =>
        body.enterInstr code getOrg fuel tables turns := by
  rw [initMemInstrArray, List.range_succ, List.foldlM_append]
  refine Option.bind_congr fun tables _ => ?_
  exact bind_pure _

theorem enterInstr_entered {fuel room i : Nat} {tables after : MemTables} {before : List Access}
    (entered : tables.Entered room before)
    (done : body.enterInstr code getOrg fuel tables i = some after) :
    ∃ access, body.access code getOrg i = some access ∧
      after.Entered room (before ++ access.toList) := by
  obtain ⟨access, known, done⟩ := Option.bind_eq_some_iff.mp done
  refine ⟨access, known, ?_⟩
  cases access with
  | none =>
      cases done
      rwa [Option.toList_none, List.append_nil]
  | some access => exact entered.enterMemInstr done

theorem accesses_succ (i : Nat) :
    body.accesses code getOrg (i + 1) = (body.accesses code getOrg i).bind fun before =>
      (body.access code getOrg i).map fun access => before ++ access.toList := by
  rw [accesses]
  refine Option.bind_congr fun before _ => ?_
  cases known : body.access code getOrg i with
  | none => rfl
  | some access =>
      cases access with
      | none => exact congrArg some (List.append_nil before).symm
      | some access => rfl

theorem initMemInstrArray_entered {fuel turns : Nat} {tables : MemTables}
    (done : body.initMemInstrArray code getOrg fuel turns = some tables) :
    ∃ entries, body.accesses code getOrg turns = some entries ∧
      tables.Entered (body.size / 2 + 1) entries := by
  induction turns generalizing tables with
  | zero =>
      cases done
      exact ⟨[], rfl, entered_init body.size⟩
  | succ turns ih =>
      rw [initMemInstrArray_succ] at done
      obtain ⟨before, earlier, done⟩ := Option.bind_eq_some_iff.mp done
      obtain ⟨entries, known, entered⟩ := ih earlier
      obtain ⟨access, found, entered⟩ := enterInstr_entered entered done
      refine ⟨_, ?_, entered⟩
      rw [accesses_succ, known, found]
      rfl

theorem enterInstr_mono {fuel more i : Nat} {tables after : MemTables} (less : fuel ≤ more)
    (done : body.enterInstr code getOrg fuel tables i = some after) :
    body.enterInstr code getOrg more tables i = some after := by
  obtain ⟨access, known, done⟩ := Option.bind_eq_some_iff.mp done
  refine Option.bind_eq_some_iff.mpr ⟨access, known, ?_⟩
  cases access with
  | none => exact done
  | some access => exact enterMemInstr_mono less done

theorem initMemInstrArray_mono {fuel more turns : Nat} {tables : MemTables} (less : fuel ≤ more)
    (done : body.initMemInstrArray code getOrg fuel turns = some tables) :
    body.initMemInstrArray code getOrg more turns = some tables := by
  induction turns generalizing tables with
  | zero => exact done
  | succ turns ih =>
      rw [initMemInstrArray_succ] at done ⊢
      obtain ⟨before, earlier, done⟩ := Option.bind_eq_some_iff.mp done
      exact Option.bind_eq_some_iff.mpr ⟨before, ih earlier, enterInstr_mono less done⟩

/-- A search for any address ends as long as a bucket of the table is empty. -/
theorem memExprHashFind_returns_all_iff {fuel turns : Nat} {tables : MemTables}
    (done : body.initMemInstrArray code getOrg fuel turns = some tables) {entries : List Access}
    (known : body.accesses code getOrg turns = some entries) :
    (∀ field1 field2, ∃ fuel hashVal,
        tables.memExprHashFind fuel field1 field2 = some hashVal) ↔
      (keys entries).card ≤ body.size / 2 := by
  obtain ⟨_, known', entered⟩ := initMemInstrArray_entered done
  cases known.symm.trans known'
  rw [← Nat.lt_succ_iff, ← entered.finds_all_iff]
  simp only [memExprHashFind_returns_iff, Prod.forall]

/-- Each turn of the loop of `init_mem_instr_array`, with its search, comes to an end, and what
it writes is inside the tables. -/
def TablesFit (body : Body) (code : Reg → BitVec 32)
    (getOrg : Nat → Nat → Finset Nat → Option (Option Reg × Finset Nat)) : Prop :=
  ∀ turns ≤ body.size, ∀ entries, body.accesses code getOrg turns = some entries →
    ∃ fuel tables, body.initMemInstrArray code getOrg fuel turns = some tables ∧ tables.Fits

/-- The address of the next access is in the table, or a bucket is empty for it. -/
theorem enterInstr_returns {room i : Nat} {tables : MemTables} {before : List Access}
    {access : Option Access} (entered : tables.Entered room before)
    (known : body.access code getOrg i = some access)
    (few : (before ++ access.toList).length ≤ room) :
    ∃ fuel after, body.enterInstr code getOrg fuel tables i = some after := by
  cases access with
  | none => exact ⟨0, tables, Option.bind_eq_some_iff.mpr ⟨none, known, rfl⟩⟩
  | some access =>
      have less : (keys before).card < room := by
        rw [List.length_append] at few
        exact Nat.lt_of_le_of_lt (card_keys_le before) few
      obtain ⟨fuel, after, done⟩ :=
        enterMemInstr_returns (i := i) ((entered.finds_iff access.key).mpr (.inl less))
      exact ⟨fuel, after, Option.bind_eq_some_iff.mpr ⟨some access, known, done⟩⟩

theorem initMemInstrArray_returns {turns : Nat} {entries : List Access}
    (known : body.accesses code getOrg turns = some entries)
    (few : entries.length ≤ body.size / 2 + 1) :
    ∃ fuel tables, body.initMemInstrArray code getOrg fuel turns = some tables := by
  induction turns generalizing entries with
  | zero => exact ⟨0, _, rfl⟩
  | succ turns ih =>
      rw [accesses_succ] at known
      obtain ⟨before, earlier, last⟩ := Option.bind_eq_some_iff.mp known
      obtain ⟨access, found, rfl⟩ := Option.map_eq_some_iff.mp last
      obtain ⟨fuel, tables, done⟩ := ih earlier (by
        rw [List.length_append] at few
        exact (Nat.le_add_right _ _).trans few)
      obtain ⟨_, earlier', entered⟩ := initMemInstrArray_entered done
      cases earlier.symm.trans earlier'
      obtain ⟨more, after, enters⟩ := enterInstr_returns entered found few
      refine ⟨max fuel more, after, ?_⟩
      rw [initMemInstrArray_succ]
      exact Option.bind_eq_some_iff.mpr ⟨tables, initMemInstrArray_mono (Nat.le_max_left ..) done,
        enterInstr_mono (Nat.le_max_right ..) enters⟩

theorem tablesFit_iff : body.TablesFit code getOrg ↔ ∀ turns ≤ body.size, ∀ entries,
    body.accesses code getOrg turns = some entries → entries.length ≤ body.size / 2 + 1 := by
  constructor
  · intro fit turns inside entries known
    obtain ⟨fuel, tables, done, fits⟩ := fit turns inside entries known
    obtain ⟨_, known', entered⟩ := initMemInstrArray_entered done
    cases known.symm.trans known'
    exact entered.fits_iff.mp fits
  · intro few turns inside entries known
    obtain ⟨fuel, tables, done⟩ := initMemInstrArray_returns known (few turns inside entries known)
    obtain ⟨_, known', entered⟩ := initMemInstrArray_entered done
    cases known.symm.trans known'
    exact ⟨fuel, tables, done, entered.fits_iff.mpr (few turns inside entries known)⟩

def orgSrcReg (body : Body) (fuel : Nat) :
    Nat → Nat → Finset Nat → Option (Option Reg × Finset Nat) :=
  body.getOrgSrcReg body.buildVarUdChain fuel

end Body

variable {g : Graph}

/-- The tables of the loop are large enough, if `code` has the numbers of the registers. -/
structure Loop.TablesFit (g : Graph) (loop : Loop) (numOfVars : Nat) (code : Reg → BitVec 32) :
    Prop where
  exits : loop.found.loopExitInstrIdxArray.length ≤ loop.found.maxLoopExit
  memory : ∀ fuel, (loop.body g numOfVars).TablesFit code ((loop.body g numOfVars).orgSrcReg fuel)

/-- The tables of a loop that was accepted are large enough exactly if at most one more than
a quarter of its instructions are branches, and at most one more than half of them are loads and
stores whose addresses are found. -/
theorem loop_tables_fit_iff {fuel instr : Nat} {loop : Loop}
    (accepted : detectLoop g fuel instr = some (some loop)) (numOfVars : Nat)
    (code : Reg → BitVec 32) :
    loop.TablesFit g numOfVars code ↔
      numOfBranches g loop.found.loopInstrArray ≤ loop.found.loopInstrArraySize / 4 + 1 ∧
        ∀ depth, ∀ turns ≤ loop.found.loopInstrArraySize, ∀ entries,
          (loop.body g numOfVars).accesses code ((loop.body g numOfVars).orgSrcReg depth) turns =
              some entries →
            entries.length ≤ loop.found.loopInstrArraySize / 2 + 1 := by
  have exits := (detectLoop_accepted accepted).exits
  constructor
  · intro fits
    refine ⟨exits ▸ fits.exits, fun depth => ?_⟩
    exact Body.tablesFit_iff.mp (fits.memory depth)
  · intro ⟨branches, few⟩
    refine ⟨exits.symm ▸ branches, fun depth => ?_⟩
    exact Body.tablesFit_iff.mpr (few depth)

theorem Body.length_accesses_le {body : Body} {code : Reg → BitVec 32}
    {getOrg : Nat → Nat → Finset Nat → Option (Option Reg × Finset Nat)}
    (first : body.access code getOrg 0 = some none) {turns : Nat} {entries : List MemTables.Access}
    (known : body.accesses code getOrg turns = some entries) : entries.length ≤ turns - 1 := by
  induction turns generalizing entries with
  | zero =>
      cases known
      exact Nat.le_refl 0
  | succ turns ih =>
      rw [accesses_succ] at known
      obtain ⟨before, earlier, last⟩ := Option.bind_eq_some_iff.mp known
      obtain ⟨access, found, rfl⟩ := Option.map_eq_some_iff.mp last
      have shorter := ih earlier
      rw [List.length_append]
      cases access with
      | none =>
          rw [Option.toList_none, List.length_nil]
          omega
      | some access =>
          rw [Option.toList_some, List.length_singleton]
          rcases Nat.eq_zero_or_pos turns with rfl | positive
          · cases Option.some.inj (first.symm.trans found)
          · omega

def threeLoads : Graph
  | 0 => ⟨.load, .format5 (.var ⟨1, .int⟩) (.var ⟨0, .ref⟩) 0, [5, 3], [1], [], none, none⟩
  | 1 => ⟨.load, .format5 (.var ⟨2, .int⟩) (.var ⟨0, .ref⟩) 4, [0], [2], [], none, none⟩
  | 2 => ⟨.load, .format5 (.var ⟨3, .int⟩) (.var ⟨0, .ref⟩) 8, [1], [3], [], none, none⟩
  | 3 => ⟨.branch, .format3, [2], [0, 4], [], none, none⟩
  | _ => ⟨.other, .format9, [3], [0], [], none, none⟩

def threeLoadsLoop : Loop where
  found := ⟨4, [⟨3, 0, 1⟩, ⟨2, 0, 1⟩, ⟨1, 0, 1⟩, ⟨0, 0, 1⟩], [0], 2⟩
  entryOuterPredNum := 0
  entryOuterPredInstr := 5
  entryOuterPredInstrSuccNum := 0

def fourLoads : Graph
  | 0 => ⟨.load, .format5 (.var ⟨1, .int⟩) (.var ⟨0, .ref⟩) 0, [6, 4], [1], [], none, none⟩
  | 1 => ⟨.load, .format5 (.var ⟨2, .int⟩) (.var ⟨0, .ref⟩) 4, [0], [2], [], none, none⟩
  | 2 => ⟨.load, .format5 (.var ⟨3, .int⟩) (.var ⟨0, .ref⟩) 8, [1], [3], [], none, none⟩
  | 3 => ⟨.load, .format5 (.var ⟨4, .int⟩) (.var ⟨0, .ref⟩) 12, [2], [4], [], none, none⟩
  | 4 => ⟨.branch, .format3, [3], [0, 5], [], none, none⟩
  | _ => ⟨.other, .format9, [4], [0], [], none, none⟩

def fourLoadsLoop : Loop where
  found := ⟨5, [⟨4, 0, 1⟩, ⟨3, 0, 1⟩, ⟨2, 0, 1⟩, ⟨1, 0, 1⟩, ⟨0, 0, 1⟩], [0], 2⟩
  entryOuterPredNum := 0
  entryOuterPredInstr := 6
  entryOuterPredInstrSuccNum := 0

theorem fourLoadsLoop_accepted : detectLoop fourLoads 6 0 = some (some fourLoadsLoop) := by
  decide

def typeNumber : VarType → Nat
  | .int => 1
  | .long => 2
  | .cc => 3
  | .float => 4
  | .double => 5
  | .ref => 6
  | .ivoid => 7
  | .fvoid => 8

/-- The numbers of the registers if all variables are from `Var_make_local`. -/
def localNumber : Reg → BitVec 32
  | .hard number => BitVec.ofNat 32 number
  | .var v => BitVec.ofNat 32 (typeNumber v.type <<< 18 ||| 2 <<< 25 ||| v.number)

namespace Body

open MemTables

theorem finds_of_enterInstr {body : Body} {code : Reg → BitVec 32}
    {getOrg : Nat → Nat → Finset Nat → Option (Option Reg × Finset Nat)} {fuel i : Nat}
    {tables after : MemTables} {access : Access}
    (known : body.access code getOrg i = some (some access))
    (done : body.enterInstr code getOrg fuel tables i = some after) : tables.Finds access.key := by
  obtain ⟨found, known', done⟩ := Option.bind_eq_some_iff.mp done
  cases known.symm.trans known'
  exact finds_of_enterMemInstr done

end Body

/-- The fourth address is looked for in a full table of three. -/
theorem four_loads_never_end : detectLoop fourLoads 6 0 = some (some fourLoadsLoop) ∧
    ¬ fourLoadsLoop.TablesFit fourLoads 5 localNumber ∧
      ∀ fuel, (fourLoadsLoop.body fourLoads 5).initMemInstrArray localNumber
        ((fourLoadsLoop.body fourLoads 5).orgSrcReg 1) fuel 5 = none := by
  have known : ∃ three four, (fourLoadsLoop.body fourLoads 5).accesses localNumber
        ((fourLoadsLoop.body fourLoads 5).orgSrcReg 1) 4 = some three ∧
      (fourLoadsLoop.body fourLoads 5).access localNumber
        ((fourLoadsLoop.body fourLoads 5).orgSrcReg 1) 4 = some (some four) ∧
      (MemTables.keys three).card = 3 ∧ four.key ∉ MemTables.keys three :=
    ⟨_, _, rfl, rfl, by decide, by decide⟩
  obtain ⟨three, four, before, last, card, absent⟩ := known
  have never : ∀ fuel, (fourLoadsLoop.body fourLoads 5).initMemInstrArray localNumber
      ((fourLoadsLoop.body fourLoads 5).orgSrcReg 1) fuel 5 = none := by
    intro fuel
    rw [Option.eq_none_iff_forall_ne_some]
    intro after done
    rw [Body.initMemInstrArray_succ] at done
    obtain ⟨tables, earlier, done⟩ := Option.bind_eq_some_iff.mp done
    obtain ⟨entries, known, entered⟩ := Body.initMemInstrArray_entered earlier
    cases before.symm.trans known
    rcases (entered.finds_iff _).mp (Body.finds_of_enterInstr last done) with less | member
    · rw [card] at less
      exact Nat.lt_irrefl 3 less
    · exact absent member
  refine ⟨fourLoadsLoop_accepted, fun fits => ?_, never⟩
  have all : (fourLoadsLoop.body fourLoads 5).accesses localNumber
      ((fourLoadsLoop.body fourLoads 5).orgSrcReg 1) 5 = some (three ++ [four]) := by
    rw [Body.accesses_succ, before, last]
    rfl
  obtain ⟨fuel, tables, done, _⟩ := fits.memory 1 5 (Nat.le_refl 5) _ all
  rw [never fuel] at done
  cases done

/-- The tables of three are large enough for three addresses. -/
theorem loop_tables_fit_iff_three_loads :
    detectLoop threeLoads 5 0 = some (some threeLoadsLoop) ∧
      ∀ code, threeLoadsLoop.TablesFit threeLoads 4 code := by
  have accepted : detectLoop threeLoads 5 0 = some (some threeLoadsLoop) := by decide
  refine ⟨accepted, fun code => (loop_tables_fit_iff accepted 4 code).mpr ⟨by decide, ?_⟩⟩
  intro depth turns inside entries known
  have few := Body.length_accesses_le rfl known
  have inside : turns ≤ 4 := inside
  change entries.length ≤ 3
  omega

end LaTTe.Translator.Loops
