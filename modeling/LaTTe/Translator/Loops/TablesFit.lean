import LaTTe.Translator.Loops.MemTables
import LaTTe.Translator.Loops.Detect

namespace LaTTe.Translator.Loops

open LaTTe.Data
open LaTTe.Data.OpenAddressing

/-! When the tables of the loop analysis are large enough. -/

abbrev MemKey := BitVec 32 × BitVec 32

namespace MemTables

variable {tables : MemTables}

def slots (tables : MemTables) (i : Nat) : Slot MemKey :=
  let bucket := tables.memExprHashTable i
  if bucket.field1 = 0 then .empty else .used (bucket.field1, bucket.field2)

def path (tables : MemTables) (k : MemKey) (n : Nat) : Nat :=
  (tables.memExprHashVal k.1 k.2 + n) % tables.maxNumMemInstr

theorem slots_eq_empty {i : Nat} :
    tables.slots i = .empty ↔ (tables.memExprHashTable i).field1 = 0 := by
  rw [slots]
  split
  · rename_i zero
    exact iff_of_true rfl zero
  · rename_i other
    exact iff_of_false nofun other

theorem slots_eq_used {i : Nat} {k : MemKey} :
    tables.slots i = .used k ↔ (tables.memExprHashTable i).field1 ≠ 0 ∧
      (tables.memExprHashTable i).field1 = k.1 ∧ (tables.memExprHashTable i).field2 = k.2 := by
  rw [slots]
  split
  · rename_i zero
    exact iff_of_false nofun fun found => found.1 zero
  · rename_i other
    rw [Slot.used.injEq, Prod.ext_iff]
    exact (and_iff_right other).symm

theorem stops_iff {k : MemKey} {n : Nat} : Stops id tables.path tables.slots k n ↔
    (tables.memExprHashTable (tables.path k n)).field1 = 0 ∨
      ((tables.memExprHashTable (tables.path k n)).field1 = k.1 ∧
        (tables.memExprHashTable (tables.path k n)).field2 = k.2) := by
  rw [Stops, slots_eq_empty]
  constructor
  · intro stops
    rcases stops with empty | ⟨other, used, same⟩
    · exact Or.inl empty
    · cases same
      exact Or.inr (slots_eq_used.mp used).2
  · intro found
    by_cases empty : (tables.memExprHashTable (tables.path k n)).field1 = 0
    · exact Or.inl empty
    · exact Or.inr ⟨k, slots_eq_used.mpr ⟨empty, found.resolve_left empty⟩, rfl⟩

theorem path_succ (k : MemKey) (n : Nat) :
    (tables.path k n + 1) % tables.maxNumMemInstr = tables.path k (n + 1) := by
  rw [path, path, Nat.mod_add_mod, Nat.add_assoc]

theorem probe_of_stops {k : MemKey} {n : Nat} (fuel : Nat)
    (stops : Stops id tables.path tables.slots k n) :
    tables.probe k.1 k.2 (fuel + 1) (tables.path k n) = some (tables.path k n) := by
  rw [probe, if_pos (stops_iff.mp stops)]

theorem probe_of_not_stops {k : MemKey} {n : Nat} (fuel : Nat)
    (passes : ¬ Stops id tables.path tables.slots k n) :
    tables.probe k.1 k.2 (fuel + 1) (tables.path k n) =
      tables.probe k.1 k.2 fuel (tables.path k (n + 1)) := by
  rw [probe, if_neg (mt stops_iff.mpr passes), path_succ]

theorem probe_ends {k : MemKey} {fuel n i : Nat}
    (found : tables.probe k.1 k.2 fuel (tables.path k n) = some i)
    (passed : ∀ m < n, ¬ Stops id tables.path tables.slots k m) :
    ∃ last, i = tables.path k last ∧ Ends id tables.path tables.slots k last := by
  induction fuel generalizing n with
  | zero => cases found
  | succ fuel ih =>
      by_cases stops : Stops id tables.path tables.slots k n
      · rw [probe_of_stops fuel stops] at found
        exact ⟨n, (Option.some.inj found).symm, stops, passed⟩
      · rw [probe_of_not_stops fuel stops] at found
        refine ih found fun m less => ?_
        rcases Nat.lt_succ_iff_lt_or_eq.mp less with before | rfl
        · exact passed m before
        · exact stops

theorem probe_returns {k : MemKey} {fuel n m : Nat} (after : n ≤ m) (enough : m - n < fuel)
    (stops : Stops id tables.path tables.slots k m) :
    ∃ i, tables.probe k.1 k.2 fuel (tables.path k n) = some i := by
  induction fuel generalizing n with
  | zero => exact absurd enough (Nat.not_lt_zero _)
  | succ fuel ih =>
      by_cases here : Stops id tables.path tables.slots k n
      · exact ⟨_, probe_of_stops fuel here⟩
      · rw [probe_of_not_stops fuel here]
        have later : n ≠ m := fun same => here (same ▸ stops)
        exact ih (by omega) (by omega)

theorem probe_mono {field1 field2 : BitVec 32} {fuel more hashVal i : Nat} (less : fuel ≤ more)
    (found : tables.probe field1 field2 fuel hashVal = some i) :
    tables.probe field1 field2 more hashVal = some i := by
  induction fuel generalizing more hashVal with
  | zero => cases found
  | succ fuel ih =>
      obtain ⟨rest, rfl⟩ := Nat.exists_eq_succ_of_ne_zero (n := more) (by omega)
      rw [probe] at found ⊢
      split at found
      · rename_i stops
        rw [if_pos stops]
        exact found
      · rename_i passes
        rw [if_neg passes]
        exact ih (Nat.le_of_succ_le_succ less) found

theorem path_zero (k : MemKey) : tables.path k 0 = tables.memExprHashVal k.1 k.2 := by
  rw [path, Nat.add_zero, memExprHashVal, Nat.mod_mod]

def Finds (tables : MemTables) (k : MemKey) : Prop :=
  ∃ fuel i, tables.probe k.1 k.2 fuel (tables.memExprHashVal k.1 k.2) = some i

theorem finds_iff {k : MemKey} :
    tables.Finds k ↔ ∃ n, Stops id tables.path tables.slots k n := by
  constructor
  · intro ⟨fuel, i, found⟩
    rw [← path_zero] at found
    obtain ⟨last, _, ends⟩ := probe_ends found fun m less => absurd less (Nat.not_lt_zero m)
    exact ⟨last, ends.1⟩
  · intro ⟨n, stops⟩
    obtain ⟨i, found⟩ := probe_returns (Nat.zero_le n) (Nat.lt_succ_self _) stops
    rw [path_zero] at found
    exact ⟨_, i, found⟩

/-! The keys that are in the table. -/

def Access.key (access : Access) : MemKey :=
  (access.field1, access.field2)

/-- The different keys of the accesses.  A bucket whose `field1` is zero stays empty. -/
def keys (accesses : List Access) : Finset MemKey :=
  (accesses.map Access.key).toFinset.filter fun k => k.1 ≠ 0

theorem keys_append (accesses : List Access) (access : Access) :
    keys (accesses ++ [access]) =
      if access.key.1 = 0 then keys accesses else insert access.key (keys accesses) := by
  ext k
  split
  · rename_i zero
    simp only [keys, Finset.mem_filter, List.mem_toFinset, List.map_append, List.mem_append,
      List.map_cons, List.map_nil, List.mem_singleton]
    constructor
    · intro ⟨member, nonzero⟩
      refine ⟨member.resolve_right fun same => nonzero (same ▸ zero), nonzero⟩
    · intro ⟨member, nonzero⟩
      exact ⟨Or.inl member, nonzero⟩
  · rename_i nonzero
    simp only [keys, Finset.mem_filter, List.mem_toFinset, List.map_append, List.mem_append,
      List.map_cons, List.map_nil, List.mem_singleton, Finset.mem_insert]
    constructor
    · intro ⟨member, other⟩
      rcases member with before | last
      · exact Or.inr ⟨before, other⟩
      · exact Or.inl last
    · intro member
      rcases member with rfl | ⟨before, other⟩
      · exact ⟨Or.inr rfl, nonzero⟩
      · exact ⟨Or.inl before, other⟩

structure Entered (tables : MemTables) (room : Nat) (accesses : List Access) : Prop where
  room_eq : tables.maxNumMemInstr = room
  positive : 0 < room
  instrs : tables.memInstrArray.length = accesses.length
  few : tables.memExprHashTableIterator.length ≤ accesses.length
  holding : Holding id tables.path tables.slots room (keys accesses)

theorem path_lt (positive : 0 < tables.maxNumMemInstr) (k : MemKey) (n : Nat) :
    tables.path k n < tables.maxNumMemInstr :=
  Nat.mod_lt _ positive

theorem Entered.finds_iff {room : Nat} {accesses : List Access}
    (entered : tables.Entered room accesses) (k : MemKey) :
    tables.Finds k ↔ (keys accesses).card < room ∨ k ∈ keys accesses := by
  obtain ⟨rfl, positive, _, _, holding⟩ := entered
  rw [MemTables.finds_iff]
  exact holding.stops_iff (path_lt positive k) (linear_injOn _ _)

theorem Entered.finds_all_iff {room : Nat} {accesses : List Access}
    (entered : tables.Entered room accesses) :
    (∀ k, tables.Finds k) ↔ (keys accesses).card < room := by
  constructor
  · intro finds
    refine ((entered.finds_iff (0, 0)).mp (finds _)).resolve_right fun member => ?_
    exact (Finset.mem_filter.mp member).2 rfl
  · intro less k
    exact (entered.finds_iff k).mpr (Or.inl less)

theorem entered_init (size : Nat) : (init size).Entered (size / 2 + 1) [] where
  room_eq := rfl
  positive := Nat.succ_pos _
  instrs := rfl
  few := Nat.le_refl _
  holding := .start _

theorem path_congr {other : MemTables} (same : other.maxNumMemInstr = tables.maxNumMemInstr) :
    other.path = tables.path := by
  funext k n
  rw [path, path, memExprHashVal, memExprHashVal, same]

theorem slots_update {other : MemTables} {i : Nat} {bucket : MemExpr}
    (same : other.memExprHashTable = Function.update tables.memExprHashTable i bucket) :
    other.slots = Function.update tables.slots i
      (if bucket.field1 = 0 then .empty else .used (bucket.field1, bucket.field2)) := by
  funext j
  rw [slots, same]
  by_cases here : j = i
  · rw [here, Function.update_self, Function.update_self]
  · rw [Function.update_of_ne here, Function.update_of_ne here]
    rfl

def slotsWith (tables : MemTables) (k : MemKey) (last : Nat) : Nat → Slot MemKey :=
  if k.1 = 0 then tables.slots else Function.update tables.slots (tables.path k last) (.used k)

theorem slots_of_empty {other : MemTables} {bucket : MemExpr} {k : MemKey} {last : Nat}
    (field1 : bucket.field1 = k.1) (field2 : bucket.field2 = k.2)
    (empty : tables.slots (tables.path k last) = .empty)
    (same : other.memExprHashTable =
      Function.update tables.memExprHashTable (tables.path k last) bucket) :
    other.slots = tables.slotsWith k last := by
  rw [slots_update same, slotsWith, field1, field2]
  split
  · rw [← empty, Function.update_eq_self]
  · rfl

theorem slots_of_used {other : MemTables} {k : MemKey} {last : Nat} {valueType : Option VarType}
    (used : tables.slots (tables.path k last) = .used k)
    (same : other.memExprHashTable = Function.update tables.memExprHashTable (tables.path k last)
      { tables.memExprHashTable (tables.path k last) with valueType := valueType }) :
    other.slots = tables.slotsWith k last := by
  obtain ⟨nonzero, field1, field2⟩ := slots_eq_used.mp used
  rw [slots_update same, slotsWith, if_neg nonzero, field1, field2, if_neg (field1 ▸ nonzero)]

theorem memExprHashEnter_spec {fuel : Nat} {k : MemKey} {field : Option Nat}
    {valueType : Option VarType} {result : MemTables × Nat}
    (done : tables.memExprHashEnter fuel k.1 k.2 field valueType = some result) :
    result.1.maxNumMemInstr = tables.maxNumMemInstr ∧
      result.1.memInstrArray = tables.memInstrArray ∧
      result.1.memExprHashTableIterator.length ≤ tables.memExprHashTableIterator.length + 1 ∧
      ∃ last, Ends id tables.path tables.slots k last ∧
        result.1.slots = tables.slotsWith k last := by
  obtain ⟨hashVal, found, done⟩ := Option.bind_eq_some_iff.mp done
  rw [← path_zero] at found
  obtain ⟨last, rfl, ends⟩ := probe_ends found fun m less => absurd less (Nat.not_lt_zero m)
  dsimp only at done
  split at done
  · rename_i zero
    cases done
    refine ⟨rfl, rfl, ?_, last, ends, slots_of_empty rfl rfl (slots_eq_empty.mpr zero) rfl⟩
    exact Nat.le_of_eq List.length_append
  · rename_i nonzero
    cases done
    have here := (stops_iff.mp ends.1).resolve_left nonzero
    exact ⟨rfl, rfl, Nat.le_succ _, last, ends, slots_of_used (slots_eq_used.mpr ⟨nonzero, here⟩) rfl⟩

theorem Entered.holding_slotsWith {room last : Nat} {accesses : List Access} {access : Access}
    (entered : tables.Entered room accesses)
    (ends : Ends id tables.path tables.slots access.key last) :
    Holding id tables.path (tables.slotsWith access.key last) room
      (keys (accesses ++ [access])) := by
  obtain ⟨rfl, positive, _, _, holding⟩ := entered
  rw [keys_append, slotsWith]
  split
  · exact holding
  · rcases ends.1 with empty | ⟨k, used, same⟩
    · exact holding.enter ends empty (path_lt positive _ _)
    · have same : k = access.key := same
      rw [same] at used
      have member := (holding.has access.key).mp ⟨_, access.key, used, rfl⟩
      rw [← used, Function.update_eq_self]
      exact (Finset.insert_eq_of_mem member).symm ▸ holding

theorem Entered.enterMemInstr {fuel room i : Nat} {accesses : List Access} {access : Access}
    {after : MemTables} (entered : tables.Entered room accesses)
    (done : tables.enterMemInstr fuel i access = some after) :
    after.Entered room (accesses ++ [access]) := by
  obtain ⟨⟨found, iteratorIdx⟩, enters, done⟩ := Option.bind_eq_some_iff.mp done
  cases done
  obtain ⟨same, instrs, few, last, ends, slots⟩ := memExprHashEnter_spec (k := access.key) enters
  constructor
  · exact same.trans entered.room_eq
  · exact entered.positive
  · rw [List.length_append, List.length_append, instrs, entered.instrs]
    rfl
  · rw [List.length_append]
    exact few.trans (Nat.succ_le_succ entered.few)
  · have holding := entered.holding_slotsWith ends
    rw [← slots] at holding
    exact path_congr same ▸ holding

theorem memExprHashEnter_returns {k : MemKey} (finds : tables.Finds k) (field : Option Nat)
    (valueType : Option VarType) :
    ∃ fuel result, tables.memExprHashEnter fuel k.1 k.2 field valueType = some result := by
  obtain ⟨fuel, hashVal, found⟩ := finds
  refine ⟨fuel, ?_⟩
  by_cases zero : (tables.memExprHashTable hashVal).field1 = 0
  · exact ⟨_, Option.bind_eq_some_iff.mpr ⟨hashVal, found, if_pos zero⟩⟩
  · exact ⟨_, Option.bind_eq_some_iff.mpr ⟨hashVal, found, if_neg zero⟩⟩

theorem enterMemInstr_returns {i : Nat} {access : Access} (finds : tables.Finds access.key) :
    ∃ fuel after, tables.enterMemInstr fuel i access = some after := by
  obtain ⟨fuel, result, enters⟩ := memExprHashEnter_returns finds access.field access.valueType
  exact ⟨fuel, _, Option.bind_eq_some_iff.mpr ⟨result, enters, rfl⟩⟩

theorem finds_of_enterMemInstr {fuel i : Nat} {access : Access} {after : MemTables}
    (done : tables.enterMemInstr fuel i access = some after) : tables.Finds access.key := by
  obtain ⟨_, enters, _⟩ := Option.bind_eq_some_iff.mp done
  obtain ⟨hashVal, found, _⟩ := Option.bind_eq_some_iff.mp enters
  exact ⟨fuel, hashVal, found⟩

theorem enterMemInstr_mono {fuel more i : Nat} {access : Access} {after : MemTables}
    (less : fuel ≤ more) (done : tables.enterMemInstr fuel i access = some after) :
    tables.enterMemInstr more i access = some after := by
  obtain ⟨found, enters, done⟩ := Option.bind_eq_some_iff.mp done
  obtain ⟨hashVal, probed, enters⟩ := Option.bind_eq_some_iff.mp enters
  refine Option.bind_eq_some_iff.mpr ⟨found, ?_, done⟩
  exact Option.bind_eq_some_iff.mpr ⟨hashVal, probe_mono less probed, enters⟩

end MemTables

end LaTTe.Translator.Loops
