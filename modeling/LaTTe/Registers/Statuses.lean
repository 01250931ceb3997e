import LaTTe.Registers.Clones

namespace LaTTe.Registers.InMemory

open LaTTe.Data
open LaTTe.Registers.AllocStat (Sound Free Movable)

/-! Several statuses at a time, and what any order of operations keeps. -/

structure Statuses where
  arrays : Arrays Entry
  stats : List AllocStat

inductive Op where
  | insert (i : Nat) (v : Var) (r : Nat)
  | erase (i : Nat) (v : Var)
  | changeReg (i : Nat) (r1 r2 : Nat)
  | changeMappedReg (i : Nat) (v : Var) (r : Nat)
  | clone (i : Nat)
  deriving DecidableEq, Repr

def Op.changes : Op → Option Nat
  | insert i _ _ => some i
  | erase i _ => some i
  | changeReg i _ _ => some i
  | changeMappedReg i _ _ => some i
  | clone _ => none

namespace Statuses

def start (count : Nat) : Statuses where
  arrays := ⟨fun _ => [], 0⟩
  stats := List.replicate count .init

def step (numVars : Nat) (world : Statuses) : Op → Option Statuses
  | .insert i v r => do
      let h ← world.stats[i]?
      let (arrays, h) ← h.insert numVars world.arrays v r
      some ⟨arrays, world.stats.set i h⟩
  | .erase i v => do
      let h ← world.stats[i]?
      let (arrays, h) ← h.erase numVars world.arrays v
      some ⟨arrays, world.stats.set i h⟩
  | .changeReg i r1 r2 => do
      let h ← world.stats[i]?
      let h ← h.changeReg numVars world.arrays r1 r2
      some ⟨world.arrays, world.stats.set i h⟩
  | .changeMappedReg i v r => do
      let h ← world.stats[i]?
      let (arrays, h) ← h.changeMappedReg numVars world.arrays v r
      some ⟨arrays, world.stats.set i h⟩
  | .clone i => do
      let h ← world.stats[i]?
      let (arrays, h) ← h.clone numVars world.arrays
      some ⟨arrays, world.stats ++ [h]⟩

end Statuses

namespace AllocStat

structure Mapped (arrays : Arrays Entry) (h : AllocStat) : Prop where
  stored : ∀ r, ∀ entry ∈ h.listAt arrays r, ∃ v, entry = .var v
  exact : ∀ n r, h.map n = some r ↔ ∃ v, .var v ∈ h.listAt arrays r ∧ v.number = n
  distinct : ∀ r, ((h.listAt arrays r).map Entry.number).Nodup
  counted : ∀ r, (∀ s v, .var v ∈ h.listAt arrays s → v.type = .double → r ≠ s + 1) →
    h.refcount r = (h.listAt arrays r).length
  behind : ∀ r v, .var v ∈ h.listAt arrays r → v.type = .double →
    h.refcount (r + 1) = h.refcount r ∧ h.rmap (r + 1) = .null

/-- A place that may be given to the variable: other variables there, or in the second place
of a double, have the same place and width. -/
structure Vacant (numVars : Nat) (arrays : Arrays Entry) (h : AllocStat) (v : Var) (r : Nat) :
    Prop where
  range : InRange numVars v r
  whole : r + v.type.width ≤ numOfLocations numVars
  proper : v.type ≠ .fvoid
  shared : ∀ s w, .var w ∈ h.listAt arrays s → w.number ≠ v.number →
    Apart r v.type.width s w.type.width ∨ r = s ∧ v.type.width = w.type.width

structure Movable (numVars : Nat) (arrays : Arrays Entry) (h : AllocStat) (v : Var)
    (r1 r2 : Nat) : Prop where
  register : IsRegister r1 ∧ IsRegister r2
  here : .var v ∈ h.listAt arrays r1
  range : 0 < r2 ∧ r2 + v.type.width ≤ numOfLocations numVars
  free : h.refcount r2 = 0
  freeNext : v.type = .double → h.refcount (r2 + 1) = 0

end AllocStat

def Statuses.Allowed (numVars : Nat) (world : Statuses) : Op → Prop
  | .insert i v r => ∃ h, world.stats[i]? = some h ∧ h.Vacant numVars world.arrays v r
  | .erase i v => ∃ h, world.stats[i]? = some h ∧ v.number < numVars ∧ h.map v.number ≠ none
  | .changeReg i r1 r2 =>
      ∃ h v, world.stats[i]? = some h ∧ h.Movable numVars world.arrays v r1 r2
  | .changeMappedReg i v r =>
      ∃ h, world.stats[i]? = some h ∧ h.map v.number ≠ none ∧ h.Vacant numVars world.arrays v r
  | .clone i => ∃ h, world.stats[i]? = some h

namespace AllocStat

variable {numVars : Nat} {arrays after : Arrays Entry} {h g : AllocStat}
  {status : Registers.AllocStat} {v : Var} {r : Nat}

theorem filterMap_getElem {α : Type} (items : List α) (count : Nat) :
    (List.range count).filterMap (items[·]?) = items.take count := by
  induction count with
  | zero => rfl
  | succ count ih =>
      rw [List.range_succ, List.filterMap_append, ih, List.take_add_one]
      refine congrArg (items.take count ++ ·) ?_
      cases item : items[count]? with
      | none => exact List.filterMap_cons_none item
      | some entry => exact List.filterMap_cons_some item

theorem findRMap_null (null : h.rmap r = .null) (cnt : Nat) : h.findRMap arrays r cnt = none := by
  rw [findRMap, null]
  cases h.refcount r with
  | zero => rfl
  | succ k => cases k <;> rfl

theorem findRMap_array {address k : Nat} (count : h.refcount r = k + 2)
    (word : h.rmap r = .array address) (cnt : Nat) :
    h.findRMap arrays r cnt = (arrays.contents address)[cnt]? := by
  rw [findRMap, count, word]
  rfl

theorem listAt_eq (sound : Sound numVars status) (represents : Represents numVars arrays h status)
    (r : Nat) : h.listAt arrays r = (status.rmap r).map .var := by
  have count := congrFun represents.refcount r
  have lists := represents.lists r
  have counted (w : Var) (member : w ∈ status.rmap r) :=
    count.trans (sound.refcount_of_mem member)
  rw [listAt]
  generalize status.rmap r = vars at lists counted ⊢
  generalize word : h.rmap r = entry at lists
  cases lists with
  | none =>
      rw [List.map_nil, List.filterMap_eq_nil_iff]
      exact fun cnt _ => findRMap_null word cnt
  | one w =>
      have one := counted w (List.mem_singleton_self w)
      have found : h.findRMap arrays r 0 = some (.var w) := by
        rw [findRMap, one, word]
        rfl
      rw [one]
      exact List.filterMap_cons_some found
  | many several old contents =>
      rename_i address
      match vars, several, counted, contents with
      | first :: second :: rest, _, counted, contents =>
          have more := counted first List.mem_cons_self
          have found : h.findRMap arrays r = ((arrays.contents address)[·]?) :=
            funext (findRMap_array more word)
          rw [found, filterMap_getElem, more, contents]

theorem mem_listAt (sound : Sound numVars status)
    (represents : Represents numVars arrays h status) :
    .var v ∈ h.listAt arrays r ↔ v ∈ status.rmap r := by
  rw [listAt_eq sound represents]
  constructor
  · intro member
    obtain ⟨w, member, same⟩ := List.mem_map.mp member
    cases same
    exact member
  · intro member
    exact List.mem_map_of_mem member

theorem Represents.findRMap_keeps (represents : Represents numVars arrays h status)
    {own : Nat → Prop} (keeps : arrays.Keeps own after)
    (foreign : ∀ address, h.Owns address → ¬ own address) (r cnt : Nat) :
    h.findRMap after r cnt = h.findRMap arrays r cnt := by
  unfold findRMap
  split
  · rfl
  · rfl
  · rfl
  · rename_i address word _ _
    have owns : h.Owns address := ⟨r, word⟩
    rw [keeps.same address (represents.old owns) (foreign address owns)]
  · rfl

theorem mapped_of_sound (sound : Sound numVars status)
    (represents : Represents numVars arrays h status) : h.Mapped arrays where
  stored := by
    intro r entry member
    rw [listAt_eq sound represents] at member
    obtain ⟨v, _, same⟩ := List.mem_map.mp member
    exact ⟨v, same.symm⟩
  exact := by
    intro n r
    rw [represents.map, sound.map_iff]
    exact exists_congr fun v => and_congr_left fun _ => (mem_listAt sound represents).symm
  distinct := by
    intro r
    have distinct := (sound.distinct r).map fun _ _ => Option.some.inj
    rw [List.map_map] at distinct
    rw [listAt_eq sound represents, List.map_map]
    exact distinct
  counted := by
    intro r single
    rw [listAt_eq sound represents, List.length_map, represents.refcount, sound.refcount r]
    cases r with
    | zero => rfl
    | succ s =>
        have none : status.seconds (s + 1) = 0 := by
          refine List.countP_eq_zero.mpr fun v member => ?_
          rw [decide_eq_true_eq]
          exact fun double => single s v ((mem_listAt sound represents).mpr member) double rfl
        rw [none, Nat.add_zero]
  behind := by
    intro r v member double
    have member := (mem_listAt sound represents).mp member
    have empty := sound.rmap_behind member double
    refine ⟨?_, ?_⟩
    · rw [represents.refcount]
      exact sound.refcount_behind member double
    · have lists := represents.lists (r + 1)
      rw [empty] at lists
      generalize h.rmap (r + 1) = word at lists ⊢
      cases lists with
      | none => rfl
      | many several => cases several

theorem Vacant.free (vacant : h.Vacant numVars arrays v r) (sound : Sound numVars status)
    (represents : Represents numVars arrays h status) : Free numVars status v r where
  numbered := vacant.range.1
  placed := ⟨vacant.range.2.1, vacant.whole⟩
  shared := fun s w member =>
    vacant.shared s w ((mem_listAt sound represents).mpr member)

theorem Movable.movable {r1 r2 : Nat} (movable : h.Movable numVars arrays v r1 r2)
    (sound : Sound numVars status) (represents : Represents numVars arrays h status) :
    LaTTe.Registers.AllocStat.Movable numVars status v r1 r2 where
  member := (mem_listAt sound represents).mp movable.here
  placed := movable.range
  free := represents.refcount ▸ movable.free
  freeNext := represents.refcount ▸ movable.freeNext

end AllocStat

namespace Statuses

open LaTTe.Registers.InMemory.AllocStat

variable {numVars : Nat} {world next : Statuses} {after : Arrays Entry} {h h' : AllocStat}
  {status : Registers.AllocStat} {i : Nat}

structure Holds (numVars : Nat) (world : Statuses) : Prop where
  each : ∀ (i : Nat) (h : AllocStat), world.stats[i]? = some h →
    ∃ status, Sound numVars status ∧ h.Represents numVars world.arrays status
  apart : ∀ (i j : Nat) (h g : AllocStat) (address : Nat), world.stats[i]? = some h → world.stats[j]? = some g →
    h.Owns address → g.Owns address → i = j

def Leaves (changes : Option Nat) (world next : Statuses) : Prop :=
  ∀ (j : Nat) (g : AllocStat), changes ≠ some j → world.stats[j]? = some g → next.stats[j]? = some g ∧
    ∀ r cnt, g.findRMap next.arrays r cnt = g.findRMap world.arrays r cnt

theorem Holds.start (numVars count : Nat) : (start count).Holds numVars where
  each := by
    intro i h here
    obtain ⟨_, rfl⟩ := List.mem_replicate.mp (List.mem_of_getElem? here)
    exact ⟨.init, .init, .init⟩
  apart := by
    intro i j h g address here _ ⟨r, owns⟩
    obtain ⟨_, rfl⟩ := List.mem_replicate.mp (List.mem_of_getElem? here)
    cases owns

/-- The status of the index is changed, and the others stay as they are. -/
theorem Holds.set (holds : world.Holds numVars) (here : world.stats[i]? = some h)
    (sound : Sound numVars status) (becomes : Becomes numVars world.arrays h after h' status) :
    Holds numVars ⟨after, world.stats.set i h'⟩ ∧
      Leaves (some i) world ⟨after, world.stats.set i h'⟩ := by
  have place : ∀ (j : Nat) (g : AllocStat), (world.stats.set i h')[j]? = some g →
      j = i ∧ g = h' ∨ i ≠ j ∧ world.stats[j]? = some g := by
    intro j g there
    rw [List.getElem?_set] at there
    split at there
    · rename_i same
      split at there
      · exact Or.inl ⟨same.symm, (Option.some.inj there).symm⟩
      · cases there
    · rename_i other
      exact Or.inr ⟨other, there⟩
  have foreign : ∀ (j : Nat) (g : AllocStat), i ≠ j → world.stats[j]? = some g → ∀ address, g.Owns address →
      ¬ h.Owns address := fun j g other there address owns mine =>
    other (holds.apart i j h g address here there mine owns)
  refine ⟨⟨fun j g there => ?_, fun j k g f address there there' owns owns' => ?_⟩,
    fun j g other there => ?_⟩
  · rcases place j g there with ⟨rfl, rfl⟩ | ⟨other, there⟩
    · exact ⟨status, sound, becomes.represents⟩
    · obtain ⟨status', sound', represents⟩ := holds.each j g there
      exact ⟨status', sound', represents.keeps becomes.keeps (foreign j g other there)⟩
  · have away : ∀ (j : Nat) (g : AllocStat), i ≠ j → world.stats[j]? = some g → g.Owns address → ¬ h'.Owns address := by
      intro j g other there owns mine
      obtain ⟨_, _, represents⟩ := holds.each j g there
      rcases becomes.owns address mine with before | new
      · exact foreign j g other there address owns before
      · exact Nat.not_lt_of_le new (represents.old owns)
    rcases place j g there with ⟨rfl, rfl⟩ | ⟨other, before⟩
    · rcases place k f there' with ⟨rfl, rfl⟩ | ⟨other', before'⟩
      · rfl
      · exact absurd owns (away k f other' before' owns')
    · rcases place k f there' with ⟨rfl, rfl⟩ | ⟨_, before'⟩
      · exact absurd owns' (away j g other before owns)
      · exact holds.apart j k g f address before before' owns owns'
  · have different : i ≠ j := fun same => other (congrArg some same)
    obtain ⟨_, _, represents⟩ := holds.each j g there
    refine ⟨(List.getElem?_set_ne different).trans there, ?_⟩
    exact represents.findRMap_keeps becomes.keeps (foreign j g different there)

/-- A status whose arrays are all new is added. -/
theorem Holds.add (holds : world.Holds numVars) (sound : Sound numVars status)
    (represents : h.Represents numVars after status)
    (keeps : world.arrays.Keeps (fun _ => False) after)
    (new : ∀ address, h.Owns address → world.arrays.allocated ≤ address) :
    Holds numVars ⟨after, world.stats ++ [h]⟩ ∧
      Leaves none world ⟨after, world.stats ++ [h]⟩ := by
  have place : ∀ (j : Nat) (g : AllocStat), (world.stats ++ [h])[j]? = some g →
      world.stats[j]? = some g ∨ j = world.stats.length ∧ g = h := by
    intro j g there
    rw [List.getElem?_append] at there
    split at there
    · exact Or.inl there
    · rename_i behind
      rw [List.getElem?_singleton] at there
      split at there
      · rename_i first
        exact Or.inr ⟨by omega, (Option.some.inj there).symm⟩
      · cases there
  refine ⟨⟨fun j g there => ?_, fun j k g f address there there' owns owns' => ?_⟩,
    fun j g _ there => ?_⟩
  · rcases place j g there with there | ⟨_, rfl⟩
    · obtain ⟨status', sound', represents'⟩ := holds.each j g there
      exact ⟨status', sound', represents'.keeps keeps fun _ _ => id⟩
    · exact ⟨status, sound, represents⟩
  · have away : ∀ (j : Nat) (g : AllocStat), world.stats[j]? = some g → g.Owns address → ¬ h.Owns address := by
      intro j g there owns mine
      obtain ⟨_, _, represents'⟩ := holds.each j g there
      exact Nat.not_lt_of_le (new address mine) (represents'.old owns)
    rcases place j g there with before | ⟨last, rfl⟩
    · rcases place k f there' with before' | ⟨_, rfl⟩
      · exact holds.apart j k g f address before before' owns owns'
      · exact absurd owns' (away j g before owns)
    · rcases place k f there' with before' | ⟨last', rfl⟩
      · exact absurd owns (away k f before' owns')
      · exact last.trans last'.symm
  · obtain ⟨_, _, represents'⟩ := holds.each j g there
    refine ⟨?_, represents'.findRMap_keeps keeps fun _ _ => id⟩
    exact (List.getElem?_append_left (List.getElem?_eq_some_iff.mp there).1).trans there

/-- An operation that is allowed returns, and keeps what holds of the statuses. -/
theorem Holds.step (holds : world.Holds numVars) {op : Op} (allowed : world.Allowed numVars op) :
    ∃ next, world.step numVars op = some next ∧ next.Holds numVars ∧
      Leaves op.changes world next := by
  cases op with
  | insert i v r =>
      obtain ⟨h, here, vacant⟩ := allowed
      obtain ⟨status, sound, represents⟩ := holds.each i h here
      have free := vacant.free sound represents
      obtain ⟨after, h', done, becomes⟩ := insert_becomes sound represents free vacant.proper
      refine ⟨_, ?_, holds.set here (sound.insert free) becomes⟩
      refine Option.bind_eq_some_iff.mpr ⟨h, here, ?_⟩
      exact Option.bind_eq_some_iff.mpr ⟨(after, h'), done, rfl⟩
  | erase i v =>
      obtain ⟨h, here, numbered, somewhere⟩ := allowed
      obtain ⟨status, sound, represents⟩ := holds.each i h here
      rw [represents.map] at somewhere
      obtain ⟨r, found⟩ := Option.ne_none_iff_exists'.mp somewhere
      have erased : status.erase v = some _ := congrArg (Option.map _) found
      obtain ⟨after, h', done, becomes⟩ := erase_becomes sound represents numbered erased
      refine ⟨_, ?_, holds.set here (sound.erase erased) becomes⟩
      refine Option.bind_eq_some_iff.mpr ⟨h, here, ?_⟩
      exact Option.bind_eq_some_iff.mpr ⟨(after, h'), done, rfl⟩
  | changeReg i r1 r2 =>
      obtain ⟨h, v, here, ready⟩ := allowed
      obtain ⟨status, sound, represents⟩ := holds.each i h here
      have movable := ready.movable sound represents
      obtain ⟨status', h', changed, done, becomes⟩ :=
        changeReg_becomes sound represents movable ready.register
      refine ⟨_, ?_, holds.set here (sound.changeReg movable changed) becomes⟩
      refine Option.bind_eq_some_iff.mpr ⟨h, here, ?_⟩
      exact Option.bind_eq_some_iff.mpr ⟨h', done, rfl⟩
  | changeMappedReg i v r =>
      obtain ⟨h, here, somewhere, vacant⟩ := allowed
      obtain ⟨status, sound, represents⟩ := holds.each i h here
      rw [represents.map] at somewhere
      obtain ⟨old, found⟩ := Option.ne_none_iff_exists'.mp somewhere
      have changed : status.changeMappedReg v r = some _ := congrArg (Option.map _) found
      have free := vacant.free sound represents
      obtain ⟨after, h', done, becomes⟩ :=
        changeMappedReg_becomes sound represents free vacant.proper changed
      refine ⟨_, ?_, holds.set here (sound.changeMappedReg free changed) becomes⟩
      refine Option.bind_eq_some_iff.mpr ⟨h, here, ?_⟩
      exact Option.bind_eq_some_iff.mpr ⟨(after, h'), done, rfl⟩
  | clone i =>
      obtain ⟨h, here⟩ := allowed
      obtain ⟨status, sound, represents⟩ := holds.each i h here
      obtain ⟨after, h', done, represents', keeps, new⟩ := clone_represents sound represents
      refine ⟨_, ?_, holds.add sound represents' keeps new⟩
      refine Option.bind_eq_some_iff.mpr ⟨h, here, ?_⟩
      exact Option.bind_eq_some_iff.mpr ⟨(after, h'), done, rfl⟩

def Steps (numVars : Nat) (world next : Statuses) : Prop :=
  ∃ op, world.Allowed numVars op ∧ world.step numVars op = some next

theorem Holds.reached {count : Nat}
    (reached : Reachable (· = .start count) (Steps numVars) world) : world.Holds numVars := by
  refine reached.invariant (Holds numVars) ?_ ?_
  · rintro _ rfl
    exact .start numVars count
  · intro before after holds ⟨op, allowed, taken⟩
    obtain ⟨next, taken', holds', _⟩ := holds.step allowed
    cases taken.symm.trans taken'
    exact holds'

/-- In any order of operations that are allowed, the maps and the counts of each status fit
together; an operation that is allowed returns, and leaves all other statuses as they were. -/
theorem statuses_stay_mapped {count : Nat}
    (reached : Reachable (· = .start count) (Steps numVars) world) :
    (∀ h ∈ world.stats, h.Mapped world.arrays) ∧
      ∀ op, world.Allowed numVars op →
        ∃ next, world.step numVars op = some next ∧ Leaves op.changes world next := by
  have holds := Holds.reached reached
  constructor
  · intro h member
    obtain ⟨i, here⟩ := List.getElem?_of_mem member
    obtain ⟨status, sound, represents⟩ := holds.each i h here
    exact mapped_of_sound sound represents
  · intro op allowed
    obtain ⟨next, taken, _, leaves⟩ := holds.step allowed
    exact ⟨next, taken, leaves⟩

def doubleInserted : Statuses where
  arrays := ⟨fun _ => [], 0⟩
  stats := [⟨Function.update (fun _ => none) 0 (some 32),
    Function.update (fun _ => .null) 32 (.var ⟨.double, 0⟩),
    Function.update (Function.update (fun _ => 0) 32 1) 33 1⟩]

theorem doubleInserted_reached :
    Reachable (· = .start 1) (Steps 4) doubleInserted := by
  have vacant : init.Vacant 4 ⟨fun _ => [], 0⟩ ⟨.double, 0⟩ 32 :=
    ⟨by decide, by decide, by decide, nofun⟩
  have taken : Steps 4 (start 1) doubleInserted :=
    ⟨.insert 0 ⟨.double, 0⟩ 32, ⟨.init, rfl, vacant⟩, rfl⟩
  exact .tail (.start rfl) taken

/-- A float may be put into the second place of a double. -/
theorem float_behind_double_breaks_maps :
    ∃ world, ((start 1).step 4 (.insert 0 ⟨.double, 0⟩ 32)).bind
      (step 4 · (.insert 0 ⟨.float, 2⟩ 33)) = some world ∧
        ∃ h ∈ world.stats, ¬ h.Mapped world.arrays := by
  refine ⟨_, rfl, _, List.mem_singleton_self _, fun mapped => ?_⟩
  have behind := (mapped.behind 32 ⟨.double, 0⟩ (by decide) rfl).1
  exact absurd behind (by decide)

/-- The status is cloned, and the double is moved to `f2` in the first status and taken out of
the clone. -/
theorem cloned_reached : ∃ world, Reachable (· = .start 1) (Steps 4) world ∧
    world.stats.map (·.map 0) = [some 34, none] := by
  have cloned : Steps 4 doubleInserted _ := ⟨.clone 0, ⟨_, rfl⟩, rfl⟩
  have moved := (doubleInserted_reached.tail cloned).tail
    ⟨.changeReg 0 32 34, ⟨_, ⟨.double, 0⟩, rfl,
      ⟨by decide, by decide, by decide, by decide, by decide⟩⟩, rfl⟩
  have erased := moved.tail ⟨.erase 1 ⟨.double, 0⟩, ⟨_, rfl, by decide, by decide⟩, rfl⟩
  exact ⟨_, erased, by decide⟩

theorem statuses_stay_mapped_double : ∃ world : Statuses,
    world.stats.map (·.map 0) = [some 34, none] ∧
    (∀ h ∈ world.stats, h.Mapped world.arrays) ∧
      ∀ op, world.Allowed 4 op →
        ∃ next, world.step 4 op = some next ∧ Leaves op.changes world next := by
  obtain ⟨world, reached, maps⟩ := cloned_reached
  exact ⟨world, maps, statuses_stay_mapped reached⟩

end Statuses

end LaTTe.Registers.InMemory
