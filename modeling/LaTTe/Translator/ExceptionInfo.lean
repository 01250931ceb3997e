import LaTTe.Strings.Utf8Const
import Mathlib.Tactic.Ring

namespace LaTTe.Translator

open LaTTe.Data (Slot)
open LaTTe.Data.OpenAddressing
open LaTTe.Strings (getNextPrime)

/-! The exception information table, a closed hash table with quadratic probing. -/

structure ExceptionInfo where
  nativePC : BitVec 32
  bytecodePC : BitVec 32
  varMap : Nat
  methodInstance : Nat
  deriving DecidableEq, Repr

def ExceptionInfo.none : ExceptionInfo :=
  ⟨0, 0, 0, 0⟩

/-- The entries have their indices below `size`. -/
structure ExceptionInfoTable where
  size : Nat
  numOfInfos : Nat
  info : Nat → ExceptionInfo

namespace ExceptionInfoTable

def defaultSize : Nat := 61

/-- `EIT_init`. -/
def init (initialSize : Nat) : ExceptionInfoTable :=
  ⟨if initialSize = 0 then defaultSize else initialSize, 0, fun _ => .none⟩

def hashVal (nativePC : BitVec 32) (size : Nat) : Nat :=
  nativePC.toNat % size

/-- The loop of `EIT_find` for `fuel` rounds; none if it reads beyond the table or goes on. -/
def findFrom (table : ExceptionInfoTable) (nativePC : BitVec 32) : Nat → Nat → Nat → Option Nat
  | 0, _, _ => Option.none
  | fuel + 1, i, cell =>
      if table.size ≤ cell then
        Option.none
      else if (table.info cell).nativePC = 0 ∨ (table.info cell).nativePC = nativePC then
        some cell
      else
        let next := cell + (2 * (i + 1) - 1)
        table.findFrom nativePC fuel (i + 1)
          (if table.size ≤ next then next - table.size else next)

/-- The search of `EIT_find` for a pc that is not zero. -/
def findCell (table : ExceptionInfoTable) (nativePC : BitVec 32) : Option Nat :=
  table.findFrom nativePC table.size 0 (hashVal nativePC table.size)

/-- `EIT_find`, which returns the index of a cell, or nothing for a null pointer. -/
def find (table : ExceptionInfoTable) (nativePC : BitVec 32) : Option (Option Nat) :=
  if nativePC = 0 then some Option.none else (table.findCell nativePC).map some

def setInfo (table : ExceptionInfoTable) (cell : Nat) (info : ExceptionInfo) :
    ExceptionInfoTable :=
  { table with info := Function.update table.info cell info }

/-- The cell that `EIT_find` returns is written; a null pointer is not. -/
def store (table : ExceptionInfoTable) (info : ExceptionInfo) : Option ExceptionInfoTable := do
  match ← table.find info.nativePC with
  | Option.none => Option.none
  | some cell => some (table.setInfo cell info)

def rehashInfo (old new : ExceptionInfoTable) (i : Nat) : Option ExceptionInfoTable :=
  if (old.info i).nativePC = 0 then
    some new
  else do
    match ← new.find (old.info i).nativePC with
    | Option.none => Option.none
    | some cell =>
        if (new.info cell).nativePC = 0 then some (new.setInfo cell (old.info i)) else Option.none

def enlarged (table : ExceptionInfoTable) : ExceptionInfoTable :=
  ⟨getNextPrime (table.size * 2), table.numOfInfos, fun _ => .none⟩

def rehash (table : ExceptionInfoTable) : Option ExceptionInfoTable :=
  (List.range table.size).foldlM table.rehashInfo table.enlarged

def isLoaded (table : ExceptionInfoTable) : Prop :=
  table.numOfInfos * 5 > table.size * 3

instance (table : ExceptionInfoTable) : Decidable table.isLoaded :=
  inferInstanceAs (Decidable (_ > _))

def counted (table : ExceptionInfoTable) : ExceptionInfoTable :=
  { table with numOfInfos := table.numOfInfos + 1 }

def insert (table : ExceptionInfoTable) (info : ExceptionInfo) : Option ExceptionInfoTable := do
  let next ← if table.isLoaded then table.counted.rehash else some table.counted
  next.store info

/-! What the table is meant to hold: each entry in the first free one of the cells that
quadratic probing takes it to. -/

def probe (size : Nat) (nativePC : BitVec 32) (n : Nat) : Nat :=
  (nativePC.toNat + n * n) % size

def settle (table : ExceptionInfoTable) (info : ExceptionInfo) : ExceptionInfoTable :=
  match (List.range table.size).find? fun n =>
      decide ((table.info (probe table.size info.nativePC n)).nativePC = 0) with
  | some n => table.setInfo (probe table.size info.nativePC n) info
  | Option.none => table

def settleInfo (old new : ExceptionInfoTable) (i : Nat) : ExceptionInfoTable :=
  if (old.info i).nativePC = 0 then new else new.settle (old.info i)

def grown (table : ExceptionInfoTable) : ExceptionInfoTable :=
  (List.range table.size).foldl table.settleInfo table.enlarged

def add (table : ExceptionInfoTable) (info : ExceptionInfo) : ExceptionInfoTable :=
  (if table.isLoaded then table.counted.grown else table.counted).settle info

def layout (infos : List ExceptionInfo) : ExceptionInfoTable :=
  infos.foldl add (init 0)

def Meets (table : ExceptionInfoTable) (nativePC : BitVec 32) : Prop :=
  ∃ n, 2 * n ≤ table.size ∧
    ((table.info (probe table.size nativePC n)).nativePC = 0 ∨
      (table.info (probe table.size nativePC n)).nativePC = nativePC)

def Open (table : ExceptionInfoTable) : Prop :=
  ∀ nativePC : BitVec 32, nativePC ≠ 0 → table.Meets nativePC

def insertAll (infos : List ExceptionInfo) : Option ExceptionInfoTable :=
  infos.foldlM insert (init 0)

/-- Every search ends in a cell of the table: in that of the pc, or in an empty one if it
has not been inserted. -/
def FindsRight (table : ExceptionInfoTable) (infos : List ExceptionInfo) : Prop :=
  ∀ nativePC : BitVec 32, nativePC ≠ 0 → ∃ cell, table.find nativePC = some (some cell) ∧
    cell < table.size ∧
    ((∃ info ∈ infos, info.nativePC = nativePC ∧ table.info cell = info) ∨
      (∀ info ∈ infos, info.nativePC ≠ nativePC) ∧ (table.info cell).nativePC = 0)

structure Insertions where
  infos : List ExceptionInfo
  distinct : (infos.map ExceptionInfo.nativePC).Nodup
  nonzero : ∀ info ∈ infos, info.nativePC ≠ 0

def Insertions.Right (calls : Insertions) : Prop :=
  ∀ done, done <+: calls.infos → ∃ table, insertAll done = some table ∧ table.FindsRight done

def slots (table : ExceptionInfoTable) (i : Nat) : Slot ExceptionInfo :=
  if (table.info i).nativePC = 0 then .empty else .used (table.info i)

section

variable {table new : ExceptionInfoTable} {size i j n cell fuel : Nat} {pc : BitVec 32}
  {info : ExceptionInfo} {infos : List ExceptionInfo}

theorem slots_eq_empty : table.slots i = .empty ↔ (table.info i).nativePC = 0 := by
  unfold slots
  split
  · exact iff_of_true rfl ‹_›
  · exact iff_of_false nofun ‹_›

theorem slots_eq_used :
    table.slots i = .used info ↔ (table.info i).nativePC ≠ 0 ∧ table.info i = info := by
  unfold slots
  split
  · exact iff_of_false nofun fun used => used.1 ‹_›
  · rw [Slot.used.injEq]
    exact (and_iff_right ‹_›).symm

theorem stops_iff (nonzero : pc ≠ 0) :
    Stops ExceptionInfo.nativePC (probe table.size) table.slots pc n ↔
      (table.info (probe table.size pc n)).nativePC = 0 ∨
        (table.info (probe table.size pc n)).nativePC = pc := by
  unfold Stops
  rw [slots_eq_empty]
  apply or_congr_right
  constructor
  · rintro ⟨info, used, same⟩
    rw [(slots_eq_used.mp used).2, same]
  · intro same
    exact ⟨_, slots_eq_used.mpr ⟨by rwa [same], rfl⟩, same⟩

theorem probe_lt (positive : 0 < size) (pc : BitVec 32) (n : Nat) : probe size pc n < size :=
  Nat.mod_lt _ positive

theorem probe_succ (pc : BitVec 32) (n : Nat) :
    (probe size pc n + (2 * (n + 1) - 1)) % size = probe size pc (n + 1) := by
  rw [probe, probe, Nat.mod_add_mod]
  congr 1
  have square : (n + 1) * (n + 1) = n * n + 2 * n + 1 := by ring
  omega

theorem probe_add_size (pc : BitVec 32) (n : Nat) :
    probe size pc (n + size) = probe size pc n := by
  have square : pc.toNat + (n + size) * (n + size) =
      pc.toNat + n * n + (2 * n + size) * size := by ring
  rw [probe, probe, square, Nat.add_mul_mod_self_right]

theorem probe_reflect (pc : BitVec 32) (below : n ≤ size) :
    probe size pc (size - n) = probe size pc n := by
  obtain ⟨rest, rfl⟩ := Nat.exists_eq_add_of_le below
  have square : pc.toNat + rest * rest + (2 * n + rest) * (n + rest) =
      pc.toNat + n * n + (n + 2 * rest) * (n + rest) := by ring
  have same := congrArg (· % (n + rest)) square
  simp only [Nat.add_mul_mod_self_right] at same
  rw [Nat.add_sub_cancel_left]
  exact same

theorem exists_probe_earlier (pc : BitVec 32) (positive : 0 < size) (late : size < 2 * n) :
    ∃ m < n, probe size pc m = probe size pc n := by
  rcases Nat.le_total n size with below | above
  · exact ⟨size - n, by omega, probe_reflect pc below⟩
  · refine ⟨n - size, by omega, ?_⟩
    rw [← probe_add_size, Nat.sub_add_cancel above]

/-- The loop finds what an ideal search finds in the first half of the cells.  A cell beyond
the table is none of the first half, and one in the table is where it should be. -/
theorem findFrom_eq_some (positive : 0 < table.size) (nonzero : pc ≠ 0) (c : Nat)
    (here : cell % table.size = probe table.size pc i)
    (early : 2 * i ≤ table.size → cell < table.size)
    (passed : ∀ m < i, ¬Stops ExceptionInfo.nativePC (probe table.size) table.slots pc m) :
    table.findFrom pc fuel i cell = some c ↔ ∃ m, m < i + fuel ∧ 2 * m ≤ table.size ∧
      Ends ExceptionInfo.nativePC (probe table.size) table.slots pc m ∧
      probe table.size pc m = c := by
  induction fuel generalizing i cell with
  | zero =>
      refine iff_of_false nofun ?_
      rintro ⟨m, less, _, ends, _⟩
      exact passed m less ends.1
  | succ fuel ih =>
      rw [findFrom]
      split
      · rename_i beyond
        refine iff_of_false nofun ?_
        rintro ⟨m, _, half, ends, _⟩
        have later : m < i := by
          refine Nat.lt_of_not_le fun le => ?_
          have inside := early (by omega)
          omega
        exact passed m later ends.1
      · rename_i inside
        have cell_eq : cell = probe table.size pc i := by
          rw [← here, Nat.mod_eq_of_lt (by omega)]
        split
        · rename_i stops
          rw [cell_eq, ← stops_iff nonzero] at stops
          have half : 2 * i ≤ table.size := by
            refine Nat.le_of_not_lt fun late => ?_
            obtain ⟨m, less, same⟩ := exists_probe_earlier pc positive late
            refine passed m less ?_
            rwa [stops_iff nonzero, same, ← stops_iff nonzero]
          have ends : Ends ExceptionInfo.nativePC (probe table.size) table.slots pc i :=
            ⟨stops, passed⟩
          rw [Option.some.injEq]
          constructor
          · intro same
            exact ⟨i, by omega, half, ends, cell_eq ▸ same⟩
          · rintro ⟨m, _, _, other, same⟩
            rw [cell_eq, ends.unique other, same]
        · rename_i passes
          rw [cell_eq, ← stops_iff nonzero] at passes
          rw [ih]
          · apply exists_congr
            intro m
            rw [Nat.add_right_comm, Nat.add_assoc]
          · rw [← probe_succ pc i, ← cell_eq]
            split
            · rename_i excess
              rw [← Nat.mod_eq_sub_mod excess]
            · rfl
          · intro half
            have low := probe_lt positive pc i
            split <;> omega
          · intro m less
            rcases Nat.lt_succ_iff_lt_or_eq.mp less with before | rfl
            · exact passed m before
            · exact passes

theorem findCell_eq_some (positive : 0 < table.size) (nonzero : pc ≠ 0) (c : Nat) :
    table.findCell pc = some c ↔ ∃ m, 2 * m ≤ table.size ∧
      Ends ExceptionInfo.nativePC (probe table.size) table.slots pc m ∧
      probe table.size pc m = c := by
  have start : hashVal pc table.size % table.size = probe table.size pc 0 :=
    Nat.mod_mod _ _
  rw [findCell, findFrom_eq_some positive nonzero c start (fun _ => Nat.mod_lt _ positive)
    (fun m less => absurd less (Nat.not_lt_zero m))]
  constructor
  · rintro ⟨m, _, found⟩
    exact ⟨m, found⟩
  · rintro ⟨m, half, found⟩
    exact ⟨m, by omega, half, found⟩

theorem meets_iff (nonzero : pc ≠ 0) :
    table.Meets pc ↔ ∃ n, 2 * n ≤ table.size ∧
      Ends ExceptionInfo.nativePC (probe table.size) table.slots pc n := by
  constructor
  · rintro ⟨n, half, stops⟩
    obtain ⟨m, le, ends⟩ := exists_ends ((stops_iff nonzero).mpr stops)
    exact ⟨m, by omega, ends⟩
  · rintro ⟨n, half, ends⟩
    exact ⟨n, half, (stops_iff nonzero).mp ends.1⟩

structure Fills (table new : ExceptionInfoTable) : Prop where
  size : new.size = table.size
  same : ∀ i, (table.info i).nativePC ≠ 0 → new.info i = table.info i

theorem Fills.not_meets (fills : Fills table new) (closed : ¬table.Meets pc) :
    ¬new.Meets pc := by
  rintro ⟨n, half, stops⟩
  rw [fills.size] at half stops
  refine closed ⟨n, half, ?_⟩
  by_cases empty : (table.info (probe table.size pc n)).nativePC = 0
  · exact .inl empty
  · rwa [fills.same _ empty] at stops

theorem Fills.trans {last : ExceptionInfoTable} (first : Fills table new)
    (second : Fills new last) : Fills table last where
  size := second.size.trans first.size
  same := by
    intro i used
    have kept := first.same i used
    rw [second.same i (by rwa [kept]), kept]

theorem settle_fills (table : ExceptionInfoTable) (info : ExceptionInfo) :
    Fills table (table.settle info) := by
  unfold settle
  split
  · rename_i n found
    have empty : (table.info (probe table.size info.nativePC n)).nativePC = 0 :=
      of_decide_eq_true (List.find?_some (p := fun n =>
        decide ((table.info (probe table.size info.nativePC n)).nativePC = 0)) found)
    refine ⟨rfl, fun i used => Function.update_of_ne ?_ _ _⟩
    rintro rfl
    exact used empty
  · exact ⟨rfl, fun _ _ => rfl⟩

theorem foldl_settleInfo_fills (old : ExceptionInfoTable) (todo : List Nat) :
    Fills new (todo.foldl old.settleInfo new) := by
  induction todo generalizing new with
  | nil => exact ⟨rfl, fun _ _ => rfl⟩
  | cons i rest ih =>
      refine Fills.trans ?_ ih
      unfold settleInfo
      split
      · exact ⟨rfl, fun _ _ => rfl⟩
      · exact settle_fills new _

structure Sound (table : ExceptionInfoTable) (infos : List ExceptionInfo) : Prop where
  positive : 0 < table.size
  well : WellPlaced ExceptionInfo.nativePC (probe table.size) table.slots
  inside : ∀ i, (table.info i).nativePC ≠ 0 → i < table.size
  holds : ∀ info, (∃ i, table.slots i = .used info) ↔ info ∈ infos

theorem slots_setInfo (nonzero : info.nativePC ≠ 0) :
    (table.setInfo cell info).slots = Function.update table.slots cell (.used info) := by
  funext i
  by_cases same : i = cell
  · subst same
    have stored : (table.setInfo i info).info i = info := Function.update_self _ _ _
    rw [Function.update_self, slots_eq_used, stored]
    exact ⟨nonzero, rfl⟩
  · rw [Function.update_of_ne same, slots, setInfo, slots]
    simp only [Function.update_of_ne same]

theorem Sound.empty (size num : Nat) (positive : 0 < size) :
    Sound ⟨size, num, fun _ => .none⟩ [] where
  positive := positive
  well := .empty
  inside := fun _ used => absurd rfl used
  holds := fun _ => ⟨(nomatch ·.choose_spec), (nomatch ·)⟩

theorem Sound.absent (sound : table.Sound infos)
    (fresh : ∀ other ∈ infos, other.nativePC ≠ pc) :
    ¬Has ExceptionInfo.nativePC table.slots pc := by
  rintro ⟨i, other, used, same⟩
  exact fresh other ((sound.holds other).mp ⟨i, used⟩) same

/-- A new entry is stored where it should be, or its search does not end in the table. -/
theorem Sound.store (sound : table.Sound infos) (nonzero : info.nativePC ≠ 0)
    (fresh : ∀ other ∈ infos, other.nativePC ≠ info.nativePC) :
    (∃ c, table.findCell info.nativePC = some c ∧ (table.info c).nativePC = 0 ∧
        table.setInfo c info = table.settle info ∧
        (table.settle info).Sound (info :: infos)) ∨
      table.findCell info.nativePC = Option.none ∧ ¬table.Meets info.nativePC := by
  have absent := sound.absent fresh
  cases found : table.findCell info.nativePC with
  | none =>
      refine .inr ⟨rfl, fun meets => ?_⟩
      obtain ⟨n, half, ends⟩ := (meets_iff nonzero).mp meets
      rw [(findCell_eq_some sound.positive nonzero _).mpr ⟨n, half, ends, rfl⟩] at found
      cases found
  | some c =>
      left
      obtain ⟨n, half, ends, rfl⟩ := (findCell_eq_some sound.positive nonzero c).mp found
      have empty : (table.info (probe table.size info.nativePC n)).nativePC = 0 := by
        rcases ends.1 with empty | ⟨other, used, same⟩
        · exact slots_eq_empty.mp empty
        · exact absurd ⟨_, other, used, same⟩ absent
      have first : (List.range table.size).find? (fun n =>
          decide ((table.info (probe table.size info.nativePC n)).nativePC = 0)) = some n := by
        rw [List.find?_range_eq_some]
        have positive := sound.positive
        refine ⟨decide_eq_true empty, List.mem_range.mpr (by omega), fun m less => ?_⟩
        rw [Bool.not_eq_true', decide_eq_false_iff_not]
        exact fun free => ends.passed m less (slots_eq_empty.mpr free)
      have settled : table.setInfo (probe table.size info.nativePC n) info =
          table.settle info := by
        rw [settle, first]
      refine ⟨_, rfl, empty, settled, ?_⟩
      rw [← settled]
      refine ⟨sound.positive, ?_, ?_, ?_⟩
      · rw [slots_setInfo nonzero]
        exact sound.well.insert ends.passed absent
      · intro i used
        by_cases same : i = probe table.size info.nativePC n
        · exact same ▸ probe_lt sound.positive _ _
        · have kept : (table.setInfo (probe table.size info.nativePC n) info).info i =
              table.info i := Function.update_of_ne same _ _
          rw [kept] at used
          exact sound.inside i used
      · intro other
        rw [slots_setInfo nonzero, List.mem_cons, ← sound.holds other]
        constructor
        · rintro ⟨i, used⟩
          by_cases same : i = probe table.size info.nativePC n
          · rw [same, Function.update_self, Slot.used.injEq] at used
            exact .inl used.symm
          · rw [Function.update_of_ne same] at used
            exact .inr ⟨i, used⟩
        · rintro (rfl | ⟨i, used⟩)
          · exact ⟨_, Function.update_self _ _ _⟩
          · refine ⟨i, ?_⟩
            rw [Function.update_of_ne, used]
            rintro rfl
            rw [slots_eq_empty.mpr empty] at used
            cases used

def held (table : ExceptionInfoTable) (cells : List Nat) : List ExceptionInfo :=
  (cells.map table.info).filter fun info => decide (info.nativePC ≠ 0)

theorem mem_held {cells : List Nat} :
    info ∈ table.held cells ↔ ∃ i ∈ cells, table.slots i = .used info := by
  unfold held
  simp only [List.mem_filter, List.mem_map, decide_eq_true_eq, slots_eq_used]
  constructor
  · rintro ⟨⟨i, member, rfl⟩, nonzero⟩
    exact ⟨i, member, nonzero, rfl⟩
  · rintro ⟨i, member, nonzero, rfl⟩
    exact ⟨⟨i, member, rfl⟩, nonzero⟩

theorem Sound.congr {others : List ExceptionInfo} (sound : table.Sound infos)
    (same : ∀ info, info ∈ others ↔ info ∈ infos) : table.Sound others where
  positive := sound.positive
  well := sound.well
  inside := sound.inside
  holds := fun info => (sound.holds info).trans (same info).symm

theorem rehashInfo_found {old : ExceptionInfoTable} (nonzero : (old.info i).nativePC ≠ 0)
    (found : new.findCell (old.info i).nativePC = some cell)
    (free : (new.info cell).nativePC = 0) :
    old.rehashInfo new i = some (new.setInfo cell (old.info i)) := by
  rw [rehashInfo, if_neg nonzero, find, if_neg nonzero, found]
  exact if_pos free

theorem rehashInfo_fails {old : ExceptionInfoTable} (nonzero : (old.info i).nativePC ≠ 0)
    (fails : new.findCell (old.info i).nativePC = Option.none) :
    old.rehashInfo new i = Option.none := by
  rw [rehashInfo, if_neg nonzero, find, if_neg nonzero, fails]
  rfl

/-- The loop of `rehash` stores every entry where it should be, or the table it would make
is not open. -/
theorem foldlM_rehashInfo {old : ExceptionInfoTable} (sound : old.Sound infos)
    (todo : List Nat) {cells : List Nat} (copied : new.Sound (old.held cells))
    (apart : (cells ++ todo).Nodup) :
    todo.foldlM old.rehashInfo new = some (todo.foldl old.settleInfo new) ∧
        (todo.foldl old.settleInfo new).Sound (old.held (cells ++ todo)) ∨
      todo.foldlM old.rehashInfo new = Option.none ∧
        ∃ pc, pc ≠ 0 ∧ ¬(todo.foldl old.settleInfo new).Meets pc := by
  induction todo generalizing new cells with
  | nil => exact .inl ⟨rfl, by rwa [List.append_nil]⟩
  | cons i rest ih =>
      rw [List.foldlM_cons, List.foldl_cons]
      have split : cells ++ i :: rest = cells ++ [i] ++ rest := by
        rw [List.append_assoc, List.singleton_append]
      rw [split] at apart ⊢
      by_cases empty : (old.info i).nativePC = 0
      · rw [rehashInfo, settleInfo, if_pos empty, if_pos empty]
        refine ih (copied.congr fun info => ?_) apart
        rw [mem_held, mem_held]
        constructor
        · rintro ⟨j, member, used⟩
          refine ⟨j, ?_, used⟩
          rcases List.mem_append.mp member with before | last
          · exact before
          · rw [List.mem_singleton.mp last, slots_eq_empty.mpr empty] at used
            cases used
        · rintro ⟨j, member, used⟩
          exact ⟨j, List.mem_append_left _ member, used⟩
      · rw [settleInfo, if_neg empty]
        have fresh : ∀ other ∈ old.held cells, other.nativePC ≠ (old.info i).nativePC := by
          intro other member same
          obtain ⟨j, inCells, used⟩ := mem_held.mp member
          obtain rfl := sound.well.unique j i other _ used (slots_eq_used.mpr ⟨empty, rfl⟩) same
          exact (List.nodup_append.mp (List.nodup_append.mp apart).1).2.2 j inCells j
            List.mem_cons_self rfl
        rcases copied.store empty fresh with ⟨c, found, free, settled, next⟩ | ⟨fails, closed⟩
        · rw [rehashInfo_found empty found free, settled, Option.bind_eq_bind, Option.bind_some]
          refine ih (next.congr fun info => ?_) apart
          rw [mem_held, List.mem_cons, mem_held]
          constructor
          · rintro ⟨j, member, used⟩
            rcases List.mem_append.mp member with before | last
            · exact .inr ⟨j, before, used⟩
            · rw [List.mem_singleton.mp last] at used
              exact .inl (slots_eq_used.mp used).2.symm
          · rintro (rfl | ⟨j, member, used⟩)
            · exact ⟨i, by simp, slots_eq_used.mpr ⟨empty, rfl⟩⟩
            · exact ⟨j, List.mem_append_left _ member, used⟩
        · right
          rw [rehashInfo_fails empty fails]
          exact ⟨rfl, _, empty,
            ((settle_fills new _).trans (foldl_settleInfo_fills old rest)).not_meets closed⟩

theorem Sound.rehash (sound : table.Sound infos) :
    table.rehash = some table.grown ∧ table.grown.Sound infos ∨
      table.rehash = Option.none ∧ ∃ pc, pc ≠ 0 ∧ ¬table.grown.Meets pc := by
  have positive := sound.positive
  have start : table.enlarged.Sound (table.held []) :=
    .empty _ _ (Strings.getNextPrime_pos (by omega))
  rcases foldlM_rehashInfo sound (List.range table.size) start List.nodup_range with
    ⟨run, copied⟩ | stuck
  · refine .inl ⟨run, copied.congr fun info => ?_⟩
    rw [List.nil_append, mem_held, ← sound.holds]
    constructor
    · rintro ⟨i, used⟩
      have inside := sound.inside i (slots_eq_used.mp used).1
      exact ⟨i, List.mem_range.mpr inside, used⟩
    · rintro ⟨i, _, used⟩
      exact ⟨i, used⟩
  · exact .inr stuck

theorem store_found (nonzero : info.nativePC ≠ 0)
    (found : table.findCell info.nativePC = some cell) :
    table.store info = some (table.setInfo cell info) := by
  rw [ExceptionInfoTable.store, find, if_neg nonzero, found]
  rfl

theorem store_fails (nonzero : info.nativePC ≠ 0)
    (fails : table.findCell info.nativePC = Option.none) :
    table.store info = Option.none := by
  rw [ExceptionInfoTable.store, find, if_neg nonzero, fails]
  rfl

theorem Sound.insert (sound : table.Sound infos) (nonzero : info.nativePC ≠ 0)
    (fresh : ∀ other ∈ infos, other.nativePC ≠ info.nativePC) :
    table.insert info = some (table.add info) ∧ (table.add info).Sound (info :: infos) ∨
      table.insert info = Option.none ∧ ¬(table.add info).Open := by
  have counted : table.counted.Sound infos :=
    ⟨sound.positive, sound.well, sound.inside, sound.holds⟩
  have stored : ∀ next : ExceptionInfoTable, next.Sound infos →
      next.store info = some (next.settle info) ∧ (next.settle info).Sound (info :: infos) ∨
        next.store info = Option.none ∧ ¬(next.settle info).Open := by
    intro next sound
    rcases sound.store nonzero fresh with ⟨c, found, _, settled, after⟩ | ⟨fails, closed⟩
    · exact .inl ⟨settled ▸ store_found nonzero found, after⟩
    · refine .inr ⟨store_fails nonzero fails, fun isOpen => ?_⟩
      exact (settle_fills next info).not_meets closed (isOpen _ nonzero)
  rw [ExceptionInfoTable.insert, add]
  split
  · rcases counted.rehash with ⟨run, grown⟩ | ⟨fails, pc, pcNonzero, closed⟩
    · rw [run]
      exact stored _ grown
    · rw [fails]
      refine .inr ⟨rfl, fun isOpen => ?_⟩
      exact (settle_fills _ info).not_meets closed (isOpen pc pcNonzero)
  · exact stored _ counted

theorem Sound.findsRight_iff (sound : table.Sound infos) :
    table.FindsRight infos ↔ table.Open := by
  apply forall_congr'
  intro pc
  apply forall_congr'
  intro nonzero
  rw [find, if_neg nonzero, meets_iff nonzero]
  constructor
  · rintro ⟨cell, found, _⟩
    obtain ⟨_, found, same⟩ := Option.map_eq_some_iff.mp found
    obtain ⟨n, half, ends, _⟩ := (findCell_eq_some sound.positive nonzero _).mp found
    exact ⟨n, half, ends⟩
  · rintro ⟨n, half, ends⟩
    refine ⟨probe table.size pc n, ?_, probe_lt sound.positive pc n, ?_⟩
    · rw [(findCell_eq_some sound.positive nonzero _).mpr ⟨n, half, ends, rfl⟩]
      rfl
    · rcases ends.1 with empty | ⟨info, used, same⟩
      · refine .inr ⟨fun info member same => ?_, slots_eq_empty.mp empty⟩
        obtain ⟨i, used⟩ := (sound.holds info).mpr member
        exact sound.well.not_has ends empty ⟨i, info, used, same⟩
      · exact .inl ⟨info, (sound.holds info).mp ⟨_, used⟩, same, (slots_eq_used.mp used).2⟩

theorem insertAll_eq (infos : List ExceptionInfo)
    (distinct : (infos.map ExceptionInfo.nativePC).Nodup)
    (nonzero : ∀ info ∈ infos, info.nativePC ≠ 0) :
    insertAll infos = some (layout infos) ∧ (layout infos).Sound infos ∨
      ∃ before, before <+: infos ∧ insertAll before = Option.none ∧ ¬(layout before).Open := by
  induction infos using List.reverseRecOn with
  | nil => exact .inl ⟨rfl, .empty _ _ (by decide)⟩
  | append_singleton infos info ih =>
      rw [List.map_append, List.nodup_append] at distinct
      have prior : infos <+: infos ++ [info] := List.prefix_append _ _
      rcases ih distinct.1 (fun other member => nonzero other (prior.subset member)) with
        ⟨run, sound⟩ | ⟨before, included, stuck⟩
      · have fresh : ∀ other ∈ infos, other.nativePC ≠ info.nativePC := fun other member =>
          distinct.2.2 _ (List.mem_map_of_mem member) _ List.mem_cons_self
        have all : insertAll (infos ++ [info]) = (layout infos).insert info := by
          change infos.foldlM ExceptionInfoTable.insert (init 0) = _ at run
          rw [insertAll, List.foldlM_append, run, Option.bind_eq_bind, Option.bind_some,
            List.foldlM_cons]
          cases (layout infos).insert info <;> rfl
        have laid : layout (infos ++ [info]) = (layout infos).add info := by
          rw [layout, List.foldl_append]
          rfl
        rcases sound.insert (nonzero info (by simp)) fresh with ⟨inserted, after⟩ |
          ⟨fails, closed⟩
        · rw [all, laid]
          refine .inl ⟨inserted, after.congr fun other => ?_⟩
          rw [List.mem_append, List.mem_singleton, List.mem_cons, or_comm]
        · exact .inr ⟨_, List.prefix_refl _, all.trans fails, laid ▸ closed⟩
      · exact .inr ⟨before, included.trans prior, stuck⟩

variable {calls : Insertions} {done : List ExceptionInfo}

theorem Insertions.insertAll_eq (calls : Insertions) (included : done <+: calls.infos) :
    insertAll done = some (layout done) ∧ (layout done).Sound done ∨
      ∃ before, before <+: calls.infos ∧ insertAll before = Option.none ∧
        ¬(layout before).Open := by
  have sublist := included.sublist
  rcases ExceptionInfoTable.insertAll_eq done
    (calls.distinct.sublist (sublist.map _))
    (fun info member => calls.nonzero info (sublist.subset member)) with placed | stuck
  · exact .inl placed
  · obtain ⟨before, early, stuck⟩ := stuck
    exact .inr ⟨before, early.trans included, stuck⟩

theorem Insertions.Right.layout_open (right : calls.Right) (included : done <+: calls.infos) :
    (layout done).Open := by
  rcases calls.insertAll_eq included with ⟨run, sound⟩ | ⟨before, early, fails, _⟩
  · obtain ⟨table, same, finds⟩ := right done included
    rw [run, Option.some.injEq] at same
    exact sound.findsRight_iff.mp (same ▸ finds)
  · obtain ⟨table, run, _⟩ := right before early
    rw [fails] at run
    cases run

end

/-- All searches stay in the table, end, and are right after each insertion exactly if, with
the entries in the cells that quadratic probing takes them to, no pc ever has only cells of
others. -/
theorem exception_info_right_iff (calls : Insertions) :
    calls.Right ↔ ∀ done, done <+: calls.infos → (layout done).Open := by
  constructor
  · exact fun right done included => right.layout_open included
  · intro isOpen done included
    rcases calls.insertAll_eq included with ⟨run, sound⟩ | ⟨before, early, _, closed⟩
    · exact ⟨_, run, sound.findsRight_iff.mpr (isOpen done included)⟩
    · exact absurd (isOpen before early) closed

def colliding (count : Nat) : List ExceptionInfo :=
  (List.range count).map fun n => ⟨BitVec.ofNat 32 (244 * (n + 1)), 0, 0, 0⟩

/-- An empty cell among those of each residue of a pc. -/
def isRoomy (table : ExceptionInfoTable) : Bool :=
  (List.range table.size).all fun i => (List.range (table.size / 2 + 1)).any fun n =>
    decide ((table.info ((i + n * n) % table.size)).nativePC = 0)

theorem isOpen_of_isRoomy {table : ExceptionInfoTable} (positive : 0 < table.size)
    (roomy : table.isRoomy = true) : table.Open := by
  intro pc _
  have here := List.all_eq_true.mp roomy (pc.toNat % table.size)
    (List.mem_range.mpr (Nat.mod_lt _ positive))
  obtain ⟨n, inside, empty⟩ := List.any_eq_true.mp here
  rw [List.mem_range] at inside
  refine ⟨n, by omega, .inl ?_⟩
  rw [probe, ← Nat.mod_add_mod]
  exact of_decide_eq_true empty

/-- Thirty entries that are looked for in the same cells still leave one of them empty. -/
theorem exception_info_right_iff_colliding :
    ∃ calls : Insertions, calls.infos = colliding 30 ∧ calls.Right := by
  refine ⟨⟨colliding 30, by decide +kernel, by decide +kernel⟩, rfl,
    (exception_info_right_iff _).mpr fun done included => ?_⟩
  have roomy : ∀ m ≤ 30, 0 < (layout (colliding m)).size ∧
      (layout (colliding m)).isRoomy = true := by
    decide +kernel
  have few : done.length ≤ 30 := by
    have length := included.length_le
    simp only [colliding, List.length_map, List.length_range] at length
    exact length
  have same : done = colliding done.length := by
    have taken := List.prefix_iff_eq_take.mp included
    simp only [colliding, ← List.map_take, List.take_range, Nat.min_eq_left few] at taken
    exact taken
  obtain ⟨positive, room⟩ := roomy done.length few
  rw [same]
  exact isOpen_of_isRoomy positive room

theorem colliding_closed : ¬(layout (colliding 31)).Open := by
  intro isOpen
  have meets := isOpen (BitVec.ofNat 32 (244 * 32)) (by decide)
  have closed : ∀ n < 31, ((layout (colliding 31)).info (probe 61 (BitVec.ofNat 32 (244 * 32))
      n)).nativePC ≠ 0 ∧ ((layout (colliding 31)).info (probe 61 (BitVec.ofNat 32 (244 * 32))
      n)).nativePC ≠ BitVec.ofNat 32 (244 * 32) := by decide +kernel
  have size : (layout (colliding 31)).size = 61 := by decide +kernel
  obtain ⟨n, half, stops⟩ := meets
  rw [size] at half stops
  have others := closed n (by omega)
  exact stops.elim others.1 others.2

theorem search_leaves_table : ¬∀ calls : Insertions, calls.Right := by
  intro right
  let calls : Insertions := ⟨colliding 31, by decide +kernel, by decide +kernel⟩
  exact colliding_closed ((right calls).layout_open (List.prefix_refl _))

end ExceptionInfoTable

end LaTTe.Translator
