import LaTTe.Data.Loop
import LaTTe.Data.QuadraticProbing
import LaTTe.Data.Transition

namespace LaTTe.Translator.Expressions

open LaTTe.Data
open LaTTe.Data.OpenAddressing

/-! The hash table of right-hand sides. -/

inductive Field where
  | const (value : BitVec 32)
  | undef (number : BitVec 32)
  | unary (code operand : BitVec 32)
  | binary (code op1 op2 : BitVec 32)
  deriving DecidableEq

structure Rhs where
  field : Field
  vn : Nat
  count : BitVec 32
  deriving DecidableEq

namespace Rhs

def isEqual (r1 r2 : Rhs) : Bool :=
  match r1.field, r2.field with
  | .const value1, .const value2 => value1 = value2
  | .undef _, .undef _ => r1.count = r2.count
  | .unary code1 operand1, .unary code2 operand2 => code1 = code2 && operand1 = operand2
  | .binary code1 a1 b1, .binary code2 a2 b2 => code1 = code2 && a1 = a2 && b1 = b2
  | _, _ => false

/-- `rhs_hash_hash`. -/
def hash (r : Rhs) : BitVec 32 :=
  match r.field with
  | .const value => 0x01101001#32 ^^^ value
  | .undef _ => 0x10010110#32 ^^^ r.count
  | .unary code operand => code.sshiftRight 16 ^^^ code ^^^ operand
  | .binary code op1 op2 => (code.sshiftRight 16 ^^^ code ^^^ op1) + op2

end Rhs

structure RhsHash where
  tableSize : Nat
  numOfMaxElements : Nat
  numOfElements : Nat
  tbl : Nat → Slot Rhs

def defaultTableSize : Nat := 128

namespace RhsHash

/-- `rhs_hash_init`. -/
def init : RhsHash :=
  ⟨defaultTableSize, defaultTableSize / 2, 0, fun _ => .empty⟩

/-- The size divides `2 ^ 32`, so that the index of an `unsigned` sum is that of the sum. -/
def getAt (rh : RhsHash) (i : Nat) : Slot Rhs :=
  rh.tbl (i % rh.tableSize)

def setAt (rh : RhsHash) (i : Nat) (slot : Slot Rhs) : RhsHash :=
  { rh with tbl := Function.update rh.tbl (i % rh.tableSize) slot }

/-- `rhs_hash_probe`. -/
def probe (i : Nat) : Nat :=
  i * i

/-- `rhs_hash_rehash`, with the insertion into the new table. -/
def rehash (insert : RhsHash → Rhs → Option RhsHash) (rh : RhsHash) : Option RhsHash :=
  (List.range rh.tableSize).foldlM
    (fun new i =>
      match rh.tbl i with
      | .used r => insert new r
      | _ => some new)
    ⟨rh.tableSize * 2, rh.tableSize * 2, 0, fun _ => .empty⟩

def insert : Nat → RhsHash → Rhs → Option RhsHash
  | 0, _, _ => none
  | fuel + 1, rh, r =>
      let key := r.hash.toNat
      if (rh.getAt key).isUsed = false then
        some (rh.setAt key (.used r))
      else
        match (List.range' 1 (rh.tableSize - 1)).find?
            fun i => !(rh.getAt (key + probe i)).isUsed with
        | some i =>
            let rh := rh.setAt (key + probe i) (.used r)
            let rh := { rh with numOfElements := rh.numOfElements + 1 }
            if rh.numOfMaxElements ≤ rh.numOfElements then
              rh.rehash (insert fuel)
            else
              some rh
        | none => do
            let rh ← rh.rehash (insert fuel)
            insert fuel rh r

def findFrom (rh : RhsHash) (r : Rhs) (key : Nat) : Nat → Nat → Option Rhs
  | 0, _ => none
  | rounds + 1, i =>
      match rh.getAt (key + probe i) with
      | .deleted => findFrom rh r key rounds (i + 1)
      | .empty => none
      | .used f => if r.isEqual f then some f else findFrom rh r key rounds (i + 1)

/-- `rhs_hash_find`. -/
def find (rh : RhsHash) (r : Rhs) : Option Rhs :=
  rh.findFrom r (r.hash.toNat % rh.tableSize) rh.tableSize 0

def items (rh : RhsHash) : List Rhs :=
  contents rh.tbl rh.tableSize

end RhsHash

namespace RhsHash

variable {rh out : RhsHash} {r f : Rhs} {fuel n : Nat}

theorem hash_eq_of_isEqual (equal : r.isEqual f = true) : r.hash = f.hash := by
  cases first : r.field <;> cases second : f.field <;>
    simp_all [Rhs.isEqual, Rhs.hash]

def path (rh : RhsHash) (r : Rhs) (n : Nat) : Slot Rhs :=
  rh.getAt (r.hash.toNat + probe n)

structure Sound (rh : RhsHash) : Prop where
  size : ∃ bits, rh.tableSize = 2 ^ (bits + 3)
  placed : ∀ i < rh.tableSize, ∀ r, rh.tbl i = .used r → ∃ n < rh.tableSize,
    (r.hash.toNat + probe n) % rh.tableSize = i ∧ ∀ m < n, rh.path r m ≠ .empty

structure Fresh (rh : RhsHash) : Prop where
  count : rh.numOfElements ≤ rh.items.length
  max : rh.numOfMaxElements = rh.tableSize

theorem Sound.positive (sound : rh.Sound) : 0 < rh.tableSize := by
  obtain ⟨bits, size⟩ := sound.size
  rw [size]
  exact Nat.two_pow_pos _

theorem Sound.index_lt (sound : rh.Sound) (i : Nat) : i % rh.tableSize < rh.tableSize :=
  Nat.mod_lt _ sound.positive

theorem sound_init : init.Sound where
  size := ⟨4, rfl⟩
  placed := fun _ _ _ => nofun

/-! The search. -/

theorem of_findFrom {key rounds i : Nat} (found : rh.findFrom r key rounds i = some f) :
    (∃ n, rh.getAt (key + probe n) = .used f) ∧ r.isEqual f = true := by
  induction rounds generalizing i with
  | zero => contradiction
  | succ rounds ih =>
      rw [findFrom] at found
      split at found
      · exact ih found
      · contradiction
      · rename_i g slot
        split at found
        · rename_i equal
          obtain rfl := Option.some.inj found
          exact ⟨⟨i, slot⟩, equal⟩
        · exact ih found

theorem findFrom_ne_none {key rounds i : Nat} (first : i ≤ n) (last : n < i + rounds)
    (passed : ∀ m < n, rh.getAt (key + probe m) ≠ .empty)
    (here : rh.getAt (key + probe n) = .used f) (equal : r.isEqual f = true) :
    rh.findFrom r key rounds i ≠ none := by
  induction rounds generalizing i with
  | zero => omega
  | succ rounds ih =>
      rw [findFrom]
      split
      · rename_i slot
        have other : i ≠ n := by
          rintro rfl
          rw [here] at slot
          contradiction
        exact ih (by omega) (by omega)
      · rename_i slot
        rcases Nat.lt_or_eq_of_le first with before | rfl
        · exact absurd slot (passed i before)
        · rw [here] at slot
          contradiction
      · rename_i g slot
        split
        · exact Option.some_ne_none _
        · rename_i different
          have other : i ≠ n := by
            rintro rfl
            rw [here, Slot.used.injEq] at slot
            exact different (slot ▸ equal)
          exact ih (by omega) (by omega)

theorem getAt_mod (rh : RhsHash) (key i : Nat) :
    rh.getAt (key % rh.tableSize + i) = rh.getAt (key + i) := by
  rw [getAt, getAt, Nat.mod_add_mod]

theorem Sound.of_find (sound : rh.Sound) (found : rh.find r = some f) :
    f ∈ rh.items ∧ r.isEqual f = true := by
  obtain ⟨⟨n, slot⟩, equal⟩ := of_findFrom found
  exact ⟨mem_contents.mpr ⟨_, sound.index_lt _, slot⟩, equal⟩

theorem Sound.find_ne_none (sound : rh.Sound) (member : f ∈ rh.items)
    (equal : r.isEqual f = true) : rh.find r ≠ none := by
  obtain ⟨i, below, slot⟩ := mem_contents.mp member
  obtain ⟨n, low, here, passed⟩ := sound.placed i below f slot
  have hash := hash_eq_of_isEqual equal
  refine findFrom_ne_none (Nat.zero_le n) (by omega) (f := f) ?_ ?_ equal
  · intro m before
    rw [getAt_mod, hash]
    exact passed m before
  · rw [getAt_mod, hash, getAt, here]
    exact slot

theorem setAt_ne_empty (i : Nat) (slot : Slot Rhs) (filled : slot ≠ .empty) {j : Nat}
    (before : rh.getAt j ≠ .empty) : (rh.setAt i slot).getAt j ≠ .empty := by
  change Function.update rh.tbl (i % rh.tableSize) slot (j % rh.tableSize) ≠ .empty
  rcases eq_or_ne (j % rh.tableSize) (i % rh.tableSize) with same | other
  · rw [same, Function.update_self]
    exact filled
  · rw [Function.update_of_ne other]
    exact before

theorem Sound.delete (sound : rh.Sound) (i : Nat) : (rh.setAt i .deleted).Sound where
  size := sound.size
  placed := by
    intro j below g used
    change Function.update rh.tbl (i % rh.tableSize) .deleted j = .used g at used
    rcases eq_or_ne j (i % rh.tableSize) with rfl | other
    · rw [Function.update_self] at used
      contradiction
    · rw [Function.update_of_ne other] at used
      obtain ⟨n, low, here, passed⟩ := sound.placed j below g used
      exact ⟨n, low, here, fun m before => setAt_ne_empty i .deleted nofun (passed m before)⟩

/-! What insertion does. -/

theorem isUsed_of_ne {slot : Slot Rhs} (used : slot.isUsed = true) : slot ≠ .empty := by
  rintro rfl
  contradiction

theorem Sound.enter (sound : rh.Sound) (low : n < rh.tableSize)
    (passed : ∀ m < n, (rh.path r m).isUsed = true) (count : Nat) :
    Sound { rh.setAt (r.hash.toNat + probe n) (.used r) with numOfElements := count } where
  size := sound.size
  placed := by
    have still : ∀ i, rh.getAt i ≠ .empty →
        (rh.setAt (r.hash.toNat + probe n) (.used r)).getAt i ≠ .empty :=
      fun _ => setAt_ne_empty _ (.used r) nofun
    intro i below g used
    change Function.update rh.tbl _ _ i = .used g at used
    rcases eq_or_ne i ((r.hash.toNat + probe n) % rh.tableSize) with rfl | other
    · rw [Function.update_self, Slot.used.injEq] at used
      subst used
      exact ⟨n, low, rfl, fun m before => still _ (isUsed_of_ne (passed m before))⟩
    · rw [Function.update_of_ne other] at used
      obtain ⟨k, low, here, before⟩ := sound.placed i below g used
      exact ⟨k, low, here, fun m less => still _ (before m less)⟩

theorem Sound.items_enter (sound : rh.Sound) (free : (rh.path r n).isUsed = false) :
    (rh.setAt (r.hash.toNat + probe n) (.used r)).items.Perm (r :: rh.items) :=
  contents_insert (sound.index_lt _) free r

def firstFree (rh : RhsHash) (r : Rhs) : Option Nat :=
  (List.range rh.tableSize).find? fun n => !(rh.path r n).isUsed

theorem firstFree_eq (positive : 0 < rh.tableSize) :
    rh.firstFree r =
      if (rh.getAt r.hash.toNat).isUsed = false then some 0
      else (List.range' 1 (rh.tableSize - 1)).find?
        fun i => !(rh.getAt (r.hash.toNat + probe i)).isUsed := by
  obtain ⟨size, equal⟩ := Nat.exists_eq_succ_of_ne_zero (Nat.ne_of_gt positive)
  rw [firstFree, equal, List.range_eq_range', List.range'_succ, List.find?_cons]
  change (match !(rh.getAt r.hash.toNat).isUsed with | true => _ | false => _) = _
  cases (rh.getAt r.hash.toNat).isUsed <;> rfl

def place (fuel : Nat) (rh : RhsHash) (r : Rhs) (n : Nat) : Option RhsHash :=
  let next := rh.setAt (r.hash.toNat + probe n) (.used r)
  if n = 0 then some next
  else
    let next := { next with numOfElements := rh.numOfElements + 1 }
    if rh.numOfMaxElements ≤ rh.numOfElements + 1 then next.rehash (insert fuel) else some next

theorem insert_eq (positive : 0 < rh.tableSize) :
    insert (fuel + 1) rh r =
      match rh.firstFree r with
      | some n => rh.place fuel r n
      | none => (rh.rehash (insert fuel)).bind fun middle => insert fuel middle r := by
  rw [insert, firstFree_eq positive]
  dsimp only
  split
  · rfl
  · split
    · rename_i i found
      have nonzero : i ≠ 0 := by
        have member := List.mem_of_find?_eq_some found
        rw [List.mem_range'_1] at member
        omega
      dsimp only [place]
      rw [if_neg nonzero]
      rfl
    · rfl

theorem of_firstFree (found : rh.firstFree r = some n) :
    n < rh.tableSize ∧ (rh.path r n).isUsed = false ∧ ∀ m < n, (rh.path r m).isUsed = true := by
  rw [firstFree, List.find?_range_eq_some, List.mem_range] at found
  simpa [and_left_comm] using found

structure Inserted (rh : RhsHash) (r : Rhs) (out : RhsHash) : Prop where
  sound : out.Sound
  items : out.items.Perm (r :: rh.items)
  grown : rh.tableSize ≤ out.tableSize
  fresh : rh.Fresh → out.Fresh

structure Rebuilt (rh out : RhsHash) : Prop where
  sound : out.Sound
  items : out.items.Perm rh.items
  grown : rh.tableSize * 2 ≤ out.tableSize
  fresh : out.Fresh

structure Entered (rh : RhsHash) (j : Nat) (new : RhsHash) : Prop where
  sound : new.Sound
  items : new.items.Perm (contents rh.tbl j)
  grown : rh.tableSize * 2 ≤ new.tableSize
  fresh : new.Fresh

section

variable {enter : RhsHash → Rhs → Option RhsHash} {j : Nat} {new next : RhsHash}

def reenter (enter : RhsHash → Rhs → Option RhsHash) (rh new : RhsHash) (i : Nat) :
    Option RhsHash :=
  match rh.tbl i with
  | .used r => enter new r
  | _ => some new

theorem rehash_eq (enter : RhsHash → Rhs → Option RhsHash) (rh : RhsHash) :
    rh.rehash enter = (List.range rh.tableSize).foldlM (reenter enter rh)
      ⟨rh.tableSize * 2, rh.tableSize * 2, 0, fun _ => .empty⟩ :=
  rfl

theorem Entered.start (sound : rh.Sound) :
    Entered rh 0 ⟨rh.tableSize * 2, rh.tableSize * 2, 0, fun _ => .empty⟩ where
  sound := by
    obtain ⟨bits, size⟩ := sound.size
    exact ⟨⟨bits + 1, by rw [size]; ring⟩, fun _ _ _ => nofun⟩
  items := by
    have none : contents (fun _ : Nat => (Slot.empty : Slot Rhs)) (rh.tableSize * 2) = [] := by
      rw [List.eq_nil_iff_forall_not_mem]
      intro r member
      obtain ⟨_, _, used⟩ := mem_contents.mp member
      contradiction
    exact List.Perm.of_eq none
  grown := Nat.le_refl _
  fresh := ⟨Nat.zero_le _, rfl⟩

theorem Entered.step (entered : Entered rh j new)
    (spec : ∀ rh r out, Sound rh → enter rh r = some out → Inserted rh r out)
    (run : reenter enter rh new j = some next) : Entered rh (j + 1) next := by
  rw [reenter] at run
  split at run
  · rename_i r slot
    have inserted := spec new r next entered.sound run
    refine ⟨inserted.sound, ?_, entered.grown.trans inserted.grown, inserted.fresh entered.fresh⟩
    have more := inserted.items.trans (entered.items.cons r)
    rw [contents_succ, slot]
    exact more.trans (List.perm_append_singleton r _).symm
  · rename_i unused
    obtain rfl := Option.some.inj run
    refine ⟨entered.sound, ?_, entered.grown, entered.fresh⟩
    have none : (rh.tbl j).item = none := by
      cases slot : rh.tbl j with
      | used r => exact absurd slot (unused r)
      | _ => rfl
    rw [contents_succ, none]
    exact entered.items.trans (List.Perm.of_eq (List.append_nil _).symm)

theorem Entered.rebuilt (entered : Entered rh rh.tableSize out) : Rebuilt rh out :=
  ⟨entered.sound, entered.items, entered.grown, entered.fresh⟩

theorem rehash_run (sound : rh.Sound)
    (spec : ∀ rh r out, Sound rh → enter rh r = some out → Inserted rh r out)
    (run : rh.rehash enter = some out) : Rebuilt rh out := by
  rw [rehash_eq] at run
  exact (foldlM_range_run (Entered rh) (fun _ _ _ _ entered run => entered.step spec run)
    (.start sound) run).rebuilt

end

theorem place_run (sound : rh.Sound) (found : rh.firstFree r = some n)
    (spec : ∀ rh r out, Sound rh → insert fuel rh r = some out → Inserted rh r out)
    (run : rh.place fuel r n = some out) : Inserted rh r out := by
  obtain ⟨low, free, passed⟩ := of_firstFree found
  have items := sound.items_enter free
  have length := items.length_eq
  rw [List.length_cons] at length
  rw [place] at run
  dsimp only at run
  split at run
  · obtain rfl := Option.some.inj run
    refine ⟨sound.enter low passed rh.numOfElements, items, Nat.le_refl _, fun fresh => ?_⟩
    refine ⟨?_, fresh.max⟩
    rw [length]
    exact Nat.le_succ_of_le fresh.count
  · split at run
    · have rebuilt := rehash_run (sound.enter low passed (rh.numOfElements + 1)) spec run
      have grown := rebuilt.grown
      refine ⟨rebuilt.sound, rebuilt.items.trans items, ?_, fun _ => rebuilt.fresh⟩
      change rh.tableSize * 2 ≤ out.tableSize at grown
      omega
    · obtain rfl := Option.some.inj run
      refine ⟨sound.enter low passed (rh.numOfElements + 1), items, Nat.le_refl _,
        fun fresh => ⟨?_, fresh.max⟩⟩
      change rh.numOfElements + 1 ≤
        (rh.setAt (r.hash.toNat + probe n) (.used r)).items.length
      rw [length]
      exact Nat.succ_le_succ fresh.count

theorem insert_run (sound : rh.Sound) (run : insert fuel rh r = some out) :
    Inserted rh r out := by
  induction fuel generalizing rh r out with
  | zero => contradiction
  | succ fuel ih =>
      rw [insert_eq sound.positive] at run
      split at run
      · rename_i n found
        exact place_run sound found (fun _ _ _ => ih) run
      · obtain ⟨middle, rebuild, last⟩ := Option.bind_eq_some_iff.mp run
        have rebuilt := rehash_run sound (fun _ _ _ => ih) rebuild
        have inserted := ih rebuilt.sound last
        have grown := rebuilt.grown
        refine ⟨inserted.sound, inserted.items.trans (rebuilt.items.cons r), ?_,
          fun _ => inserted.fresh rebuilt.fresh⟩
        exact Nat.le_trans (by omega) inserted.grown

/-! Insertion ends: each rebuild doubles the table, until an eighth of it has room for all. -/

/-- `insert` returns for what is small enough for `level` more rebuilds. -/
def Returns (fuel limit level : Nat) : Prop :=
  ∀ rh r, Sound rh → Fresh rh → rh.items.length ≤ limit →
    8 * (limit + 1) ≤ rh.tableSize * 2 ^ level → ∃ out, insert fuel rh r = some out

section

variable {limit level : Nat}

theorem rehash_returns (sound : rh.Sound) (returns : Returns fuel limit level)
    (few : rh.items.length ≤ limit + 1) (room : 8 * (limit + 1) ≤ rh.tableSize * 2 * 2 ^ level) :
    ∃ out, rh.rehash (insert fuel) = some out ∧ Rebuilt rh out := by
  have step : ∀ j < rh.tableSize, ∀ new, Entered rh j new →
      ∃ next, reenter (insert fuel) rh new j = some next ∧ Entered rh (j + 1) next := by
    intro j below new entered
    have taken : ∃ next, reenter (insert fuel) rh new j = some next := by
      rw [reenter]
      split
      · rename_i r slot
        refine returns new r entered.sound entered.fresh ?_ ?_
        · have later := length_contents_mono rh.tbl (Nat.succ_le_of_lt below)
          rw [Nat.succ_eq_add_one, contents_succ, slot, List.length_append] at later
          change _ + 1 ≤ rh.items.length at later
          rw [entered.items.length_eq]
          omega
        · exact room.trans (Nat.mul_le_mul_right _ entered.grown)
      · exact ⟨new, rfl⟩
    obtain ⟨next, run⟩ := taken
    exact ⟨next, run, entered.step (fun _ _ _ => insert_run) run⟩
  obtain ⟨out, run, entered⟩ := foldlM_range (Entered rh) step (.start sound)
  exact ⟨out, run, entered.rebuilt⟩

theorem exists_firstFree (sound : rh.Sound) (few : 8 * (rh.items.length + 1) ≤ rh.tableSize) :
    ∃ n, rh.firstFree r = some n := by
  obtain ⟨bits, size⟩ := sound.size
  have less : (contents rh.tbl (2 ^ (bits + 3))).length < 2 ^ bits := by
    rw [← size]
    have eighth : 2 ^ (bits + 3) = 8 * 2 ^ bits := by ring
    change rh.items.length < 2 ^ bits
    omega
  obtain ⟨n, low, free⟩ := exists_free less r.hash.toNat
  rw [← size] at low free
  rw [← Option.isSome_iff_exists, firstFree, List.find?_isSome]
  exact ⟨n, List.mem_range.mpr low, by rw [path, getAt, probe, free]; rfl⟩

theorem insert_returns_of (sound : rh.Sound) (returns : Returns fuel limit level)
    (few : rh.items.length ≤ limit) (room : 8 * (limit + 1) ≤ rh.tableSize * 2 ^ (level + 1)) :
    ∃ out, insert (fuel + 1) rh r = some out := by
  have room' : 8 * (limit + 1) ≤ rh.tableSize * 2 * 2 ^ level := by
    rw [Nat.mul_assoc, ← Nat.pow_succ']
    exact room
  rw [insert_eq sound.positive]
  split
  · rename_i n found
    obtain ⟨low, free, passed⟩ := of_firstFree found
    have length := (sound.items_enter free).length_eq
    rw [List.length_cons] at length
    rw [place]
    dsimp only
    split
    · exact ⟨_, rfl⟩
    · split
      · have entered := sound.enter low passed (rh.numOfElements + 1)
        have most : (rh.setAt (r.hash.toNat + probe n) (.used r)).items.length ≤ limit + 1 := by
          omega
        obtain ⟨out, run, _⟩ := rehash_returns entered returns most room'
        exact ⟨out, run⟩
      · exact ⟨_, rfl⟩
  · obtain ⟨middle, run, rebuilt⟩ := rehash_returns sound returns (Nat.le_succ_of_le few) room'
    obtain ⟨out, last⟩ := returns middle r rebuilt.sound rebuilt.fresh
      (rebuilt.items.length_eq.trans_le few) (room'.trans (Nat.mul_le_mul_right _ rebuilt.grown))
    exact ⟨out, by rw [run, Option.bind_some, last]⟩

theorem returns (limit level : Nat) (enough : level < fuel) : Returns fuel limit level := by
  induction level generalizing fuel with
  | zero =>
      obtain ⟨fuel, rfl⟩ := Nat.exists_eq_succ_of_ne_zero (Nat.ne_of_gt enough)
      intro rh r sound fresh few room
      rw [Nat.pow_zero, Nat.mul_one] at room
      obtain ⟨n, found⟩ := exists_firstFree (r := r) sound (by omega)
      have count := fresh.count
      have max := fresh.max
      rw [insert_eq sound.positive, found]
      dsimp only [place]
      rw [if_neg (c := rh.numOfMaxElements ≤ rh.numOfElements + 1) (by omega)]
      split <;> exact ⟨_, rfl⟩
  | succ level ih =>
      obtain ⟨fuel, rfl⟩ := Nat.exists_eq_succ_of_ne_zero (Nat.ne_of_gt (Nat.zero_lt_of_lt enough))
      intro rh r sound _ few room
      exact insert_returns_of sound (ih (Nat.lt_of_succ_lt_succ enough)) few room

end

theorem insert_returns (sound : rh.Sound) (r : Rhs)
    (enough : 8 * (rh.items.length + 1) + 2 ≤ fuel) : ∃ out, insert fuel rh r = some out := by
  obtain ⟨fuel, rfl⟩ := Nat.exists_eq_succ_of_ne_zero (Nat.ne_of_gt (Nat.zero_lt_of_lt enough))
  have smaller : Returns fuel rh.items.length (8 * (rh.items.length + 1)) :=
    returns _ _ (by omega)
  refine insert_returns_of sound smaller (Nat.le_refl _) ?_
  have power := Nat.lt_two_pow_self (n := 8 * (rh.items.length + 1) + 1)
  have positive := sound.positive
  calc 8 * (rh.items.length + 1) ≤ 1 * 2 ^ (8 * (rh.items.length + 1) + 1) := by omega
    _ ≤ rh.tableSize * 2 ^ (8 * (rh.items.length + 1) + 1) := Nat.mul_le_mul_right _ positive

end RhsHash

structure Tables where
  table : Nat → RhsHash
  live : Nat → List Rhs

namespace Tables

def set (s : Tables) (id : Nat) (rh : RhsHash) (live : List Rhs) : Tables :=
  ⟨Function.update s.table id rh, Function.update s.live id live⟩

/-- Insertion, deletion by slot as at stores and calls, and `rhs_hash_copy`. -/
inductive Step (s : Tables) : Tables → Prop where
  | init (id : Nat) : Step s (s.set id .init [])
  | insert {rh : RhsHash} (id fuel : Nat) (r : Rhs)
      (inserted : (s.table id).insert fuel r = some rh) : Step s (s.set id rh (r :: s.live id))
  | delete {r : Rhs} (id i : Nat) (below : i < (s.table id).tableSize)
      (used : (s.table id).getAt i = .used r) :
      Step s (s.set id ((s.table id).setAt i .deleted) ((s.live id).erase r))
  | copy (source target : Nat) : Step s (s.set target (s.table source) (s.live source))

def Initial (s : Tables) : Prop :=
  ∀ id, s.table id = .init ∧ s.live id = []

variable {s next : Tables}

structure Right (s : Tables) : Prop where
  sound : ∀ id, (s.table id).Sound
  items : ∀ id, (s.table id).items.Perm (s.live id)

theorem Right.set (right : s.Right) {rh : RhsHash} {live : List Rhs} (sound : rh.Sound)
    (items : rh.items.Perm live) (id : Nat) : (s.set id rh live).Right := by
  constructor
  · intro other
    change (Function.update s.table id rh other).Sound
    rcases eq_or_ne other id with rfl | different
    · rw [Function.update_self]
      exact sound
    · rw [Function.update_of_ne different]
      exact right.sound other
  · intro other
    change (Function.update s.table id rh other).items.Perm (Function.update s.live id live other)
    rcases eq_or_ne other id with rfl | different
    · rw [Function.update_self, Function.update_self]
      exact items
    · rw [Function.update_of_ne different, Function.update_of_ne different]
      exact right.items other

theorem items_init : RhsHash.init.items = [] := by
  rw [List.eq_nil_iff_forall_not_mem]
  intro r member
  obtain ⟨_, _, used⟩ := mem_contents.mp member
  contradiction

theorem Right.of_initial (initial : s.Initial) : s.Right := by
  constructor
  · intro id
    rw [(initial id).1]
    exact RhsHash.sound_init
  · intro id
    rw [(initial id).1, (initial id).2, items_init]

theorem Right.step (right : s.Right) (taken : Step s next) : next.Right := by
  cases taken with
  | init id => exact right.set RhsHash.sound_init (List.Perm.of_eq items_init) id
  | insert id fuel r inserted =>
      have done := RhsHash.insert_run (right.sound id) inserted
      exact right.set done.sound (done.items.trans ((right.items id).cons r)) id
  | @delete r id i below used =>
      have sound := right.sound id
      have removed := contents_delete (sound.index_lt i) used
      have member : r ∈ s.live id := (right.items id).mem_iff.mp
        (mem_contents.mpr ⟨_, sound.index_lt i, used⟩)
      refine right.set (sound.delete i) ?_ id
      exact ((removed.trans (right.items id)).trans (List.perm_cons_erase member)).cons_inv
  | copy source target => exact right.set (right.sound source) (right.items source) target

theorem right_of_reachable (reached : Reachable Initial Step s) : s.Right :=
  reached.invariant Right (fun _ => Right.of_initial) fun _ _ right => right.step

/-- What is found is an equal item that was inserted and not deleted, and it is found if there
is one; an insertion ends, too. -/
theorem find_right (reached : Reachable Initial Step s) (id : Nat) (r : Rhs) :
    (∀ f, (s.table id).find r = some f → f ∈ s.live id ∧ r.isEqual f = true) ∧
      ((s.table id).find r = none → ∀ f ∈ s.live id, r.isEqual f = false) ∧
      ∃ least, ∀ fuel ≥ least, ∃ rh, (s.table id).insert fuel r = some rh := by
  have right := right_of_reachable reached
  have sound := right.sound id
  refine ⟨?_, ?_, 8 * ((s.table id).items.length + 1) + 2, fun fuel enough => ?_⟩
  · intro f found
    obtain ⟨member, equal⟩ := sound.of_find found
    exact ⟨(right.items id).mem_iff.mp member, equal⟩
  · intro absent f member
    refine eq_false_of_ne_true fun equal => ?_
    exact sound.find_ne_none ((right.items id).mem_iff.mpr member) equal absent
  · exact RhsHash.insert_returns sound r enough

theorem table_set_self (s : Tables) (id : Nat) (rh : RhsHash) (live : List Rhs) :
    (s.set id rh live).table id = rh :=
  Function.update_self _ _ _

theorem live_set_self (s : Tables) (id : Nat) (rh : RhsHash) (live : List Rhs) :
    (s.set id rh live).live id = live :=
  Function.update_self _ _ _

theorem table_set_other (s : Tables) {id other : Nat} (rh : RhsHash) (live : List Rhs)
    (apart : other ≠ id) : (s.set id rh live).table other = s.table other :=
  Function.update_of_ne apart _ _

theorem set_same (s : Tables) (id : Nat) : s.set id (s.table id) (s.live id) = s := by
  rw [set, Function.update_eq_self, Function.update_eq_self]

theorem set_set (s : Tables) (id : Nat) (rh rh' : RhsHash) (live live' : List Rhs) :
    (s.set id rh live).set id rh' live' = s.set id rh' live' := by
  simp [set]

/-- Insertions one after the other into a table. -/
theorem reachable_inserts (reached : Reachable Initial Step s) (id fuel : Nat) (rs : List Rhs)
    {rh : RhsHash} (run : rs.foldlM (RhsHash.insert fuel) (s.table id) = some rh) :
    Reachable Initial Step (s.set id rh (rs.reverse ++ s.live id)) := by
  induction rs generalizing s with
  | nil =>
      rw [← Option.some.inj run, List.reverse_nil, List.nil_append, set_same]
      exact reached
  | cons r rest ih =>
      rw [List.foldlM_cons, Option.bind_eq_bind, Option.bind_eq_some_iff] at run
      obtain ⟨next, inserted, onward⟩ := run
      have later := ih (reached.tail (.insert id fuel r inserted))
        (by rw [table_set_self]; exact onward)
      rw [set_set, live_set_self] at later
      rw [List.reverse_cons, List.append_assoc, List.singleton_append]
      exact later

def colliding (n : Nat) : Rhs :=
  ⟨.const (BitVec.ofNat 32 (128 * n)), n, 0⟩

/-- Twenty insertions and a deletion in one table, and five insertions in its copy; the last
of them finds all places taken and has the table rebuilt. -/
theorem find_right_rebuilt : ∃ s : Tables, Reachable Initial Step s ∧
    (s.table 0).tableSize = 128 ∧ (s.table 1).tableSize = 256 ∧
    (s.table 1).find (colliding 1) = none ∧
    (s.table 1).find (colliding 24) = some (colliding 24) ∧
    ∀ id r, (∀ f, (s.table id).find r = some f → f ∈ s.live id ∧ r.isEqual f = true) ∧
      ((s.table id).find r = none → ∀ f ∈ s.live id, r.isEqual f = false) ∧
      ∃ least, ∀ fuel ≥ least, ∃ rh, (s.table id).insert fuel r = some rh := by
  have runs : (((List.range 20).map colliding).foldlM (RhsHash.insert 3) .init).bind
      (fun rh => (((List.range' 20 5).map colliding).foldlM (RhsHash.insert 3)
        (rh.setAt 2 .deleted)).map fun copy => (rh.tableSize, rh.getAt 2, copy.tableSize,
          copy.find (colliding 1), copy.find (colliding 24))) =
      some (128, .used (colliding 1), 256, none, some (colliding 24)) := by
    decide +kernel
  obtain ⟨first, filled, rest⟩ := Option.bind_eq_some_iff.mp runs
  obtain ⟨copy, rebuilt, facts⟩ := Option.map_eq_some_iff.mp rest
  simp only [Prod.mk.injEq] at facts
  obtain ⟨size, used, grown, deleted, found⟩ := facts
  have start : Reachable Initial Step ⟨fun _ => .init, fun _ => []⟩ := .start fun _ => ⟨rfl, rfl⟩
  have full := reachable_inserts start 0 3 _ filled
  have removed := full.tail (.delete 0 2 (by rw [table_set_self, size]; decide)
    (by rw [table_set_self]; exact used))
  rw [set_set, table_set_self] at removed
  have copied := removed.tail (.copy 0 1)
  rw [table_set_self] at copied
  have reached := reachable_inserts copied 1 3 _ (by rw [table_set_self]; exact rebuilt)
  rw [set_set] at reached
  refine ⟨_, reached, ?_, ?_, ?_, ?_, fun id r => find_right reached id r⟩
  · rw [table_set_other _ _ _ (by decide), table_set_self]
    exact size
  all_goals
    rw [table_set_self]
    assumption

end Tables

end LaTTe.Translator.Expressions
