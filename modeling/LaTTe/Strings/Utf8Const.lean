import LaTTe.Data.OpenAddressing
import Mathlib.Data.BitVec

namespace LaTTe.Strings

open LaTTe.Data (Slot)

/-! The table of the UTF-8 constants. -/

def primes : List Nat :=
  [0, 127, 251, 509, 1021, 2039, 4093, 8191, 16381, 32749, 65521, 131071, 262139, 524287,
    1048573, 2097143, 4194301, 8388593, 16777213, 33554393, 67108859, 400000001]

def prime (index : Nat) : Nat :=
  primes.getD index 0

/-- The loop of `get_next_prime`; the results are `low`, `high` and `mid`. -/
def searchPrimes (val : Nat) : Nat → Nat → Nat → Nat → Nat × Nat × Nat
  | 0, low, high, mid => (low, high, mid)
  | fuel + 1, low, high, mid =>
      if low ≤ high then
        let mid := (low + high) / 2
        if prime mid > val then searchPrimes val fuel low (mid - 1) mid
        else if prime mid < val then searchPrimes val fuel (mid + 1) high mid
        else (low, high, mid)
      else (low, high, mid)

/-- `get_next_prime`, which finds the nearest one. -/
def getNextPrime (val : Nat) : Nat :=
  let (low, high, mid) := searchPrimes val primes.length 1 (primes.length - 2) 0
  if prime mid = val then prime mid
  else if high ≤ 1 || low ≥ primes.length - 2 then val - 1
  else if prime mid > val then
    if prime mid - val > val - prime (mid - 1) then prime (mid - 1) else prime mid
  else if val - prime mid ≥ prime (mid + 1) - val then prime (mid + 1)
  else prime mid

theorem searchPrimes_spec (val fuel : Nat) {low high mid : Nat} (positive : 1 ≤ low)
    (inside : 1 ≤ mid) (above : prime mid > val → high = mid - 1)
    (below : prime mid < val → low = mid + 1) :
    ∃ low' high' mid', searchPrimes val fuel low high mid = (low', high', mid') ∧ 1 ≤ mid' ∧
      (prime mid' > val → high' = mid' - 1) ∧ (prime mid' < val → low' = mid' + 1) := by
  induction fuel generalizing low high mid with
  | zero => exact ⟨low, high, mid, rfl, inside, above, below⟩
  | succ fuel ih =>
      rw [searchPrimes]
      split
      · dsimp only
        split
        · exact ih positive (by omega) (fun _ => rfl) (fun less => by omega)
        · split
          · exact ih (by omega) (by omega) (fun more => by omega) (fun _ => rfl)
          · exact ⟨_, _, _, rfl, by omega, fun more => by omega, fun less => by omega⟩
      · exact ⟨_, _, _, rfl, inside, above, below⟩

theorem prime_pos_iff (index : Nat) : 0 < prime index ↔ 1 ≤ index ∧ index < 22 := by
  rcases Nat.lt_or_ge index 22 with small | large
  · have all : ∀ i < 22, 0 < prime i ↔ 1 ≤ i ∧ i < 22 := by decide
    exact all index small
  · have none : prime index = 0 := by
      rw [prime, List.getD_eq_getElem?_getD, List.getElem?_eq_none large, Option.getD_none]
    omega

theorem getNextPrime_pos {val : Nat} (large : 2 ≤ val) : 0 < getNextPrime val := by
  have first : ∃ low high mid, searchPrimes val primes.length 1 (primes.length - 2) 0 =
      (low, high, mid) ∧ 1 ≤ mid ∧ (prime mid > val → high = mid - 1) ∧
        (prime mid < val → low = mid + 1) := by
    change ∃ low high mid, searchPrimes val (21 + 1) 1 20 0 = (low, high, mid) ∧ _
    rw [searchPrimes, if_pos (by decide)]
    dsimp only
    split
    · exact searchPrimes_spec val _ (by decide) (by decide) (fun _ => rfl) (fun less => by omega)
    · split
      · exact searchPrimes_spec val _ (by decide) (by decide) (fun more => by omega) (fun _ => rfl)
      · exact ⟨_, _, _, rfl, by decide, fun more => by omega, fun less => by omega⟩
  obtain ⟨low, high, mid, searched, inside, above, below⟩ := first
  have length : primes.length = 22 := rfl
  have here := prime_pos_iff mid
  have before := prime_pos_iff (mid - 1)
  have after := prime_pos_iff (mid + 1)
  rw [getNextPrime, searched]
  dsimp only
  simp only [Bool.or_eq_true, decide_eq_true_eq, length]
  split_ifs <;> omega

structure Utf8Const where
  address : Nat
  data : List (BitVec 8)
  deriving DecidableEq, Repr

/-- The bytes of a new constant that are compared from then on: its `length` is a `uint16`. -/
def stored (s : List (BitVec 8)) : List (BitVec 8) :=
  s.take (s.length % 2 ^ 16)

theorem stored_eq {s : List (BitVec 8)} (short : s.length < 2 ^ 16) : stored s = s := by
  rw [stored, Nat.mod_eq_of_lt short, List.take_length]

/-- `hashUtf8String`, in which a character has a sign. -/
def hashUtf8String (data : List (BitVec 8)) : BitVec 32 :=
  data.foldl (fun hash c => hash * 37 + c.signExtend 32) 0

/-- The loop of `find_utf8hash` for `fuel` rounds, none if it does not end in them. -/
def findFrom (utf8hash : Nat → Slot Utf8Const) (size : Nat) (s : List (BitVec 8)) :
    Nat → Nat → Nat → Option Nat
  | 0, _, _ => none
  | fuel + 1, index, step =>
      let next := findFrom utf8hash size s fuel ((index + (2 * (step + 1) - 1)) % size) (step + 1)
      match utf8hash index with
      | .empty => some index
      | .deleted => next
      | .used m => if m.data = s then some index else next

/-- `find_utf8hash`.  The indices come back after as many rounds as there are slots. -/
def findUtf8hash (utf8hash : Nat → Slot Utf8Const) (size : Nat) (s : List (BitVec 8)) :
    Option Nat :=
  findFrom utf8hash size s size ((hashUtf8String s).toNat % size) 0

inductive Failure where
  | marker
  | null
  | endless
  deriving DecidableEq, Repr

structure Utf8Table where
  utf8hash : Option (Nat → Slot Utf8Const)
  size : Nat
  count : Nat

namespace Utf8Table

def initial : Utf8Table :=
  ⟨none, 0, 0⟩

def isFull (table : Utf8Table) : Prop :=
  3 * table.count ≥ 2 * table.size

instance (table : Utf8Table) : Decidable table.isFull :=
  inferInstanceAs (Decidable (_ ≥ _))

end Utf8Table

def rehashSlot (old : Nat → Slot Utf8Const) (size : Nat) (new : Nat → Slot Utf8Const) (i : Nat) :
    Except Failure (Nat → Slot Utf8Const) :=
  match old i with
  | .empty => .ok new
  | .deleted => .error .marker
  | .used m =>
      match findUtf8hash new size m.data with
      | some index => .ok (Function.update new index (.used m))
      | none => .error .endless

def rehash (table : Utf8Table) : Except Failure Utf8Table :=
  match table.utf8hash with
  | none => .ok ⟨some fun _ => .empty, 1021, table.count⟩
  | some old => do
      let size := getNextPrime (table.size * 2)
      let new ← (List.range table.size).reverse.foldlM (rehashSlot old size) fun _ => .empty
      .ok ⟨some new, size, table.count⟩

/-- The first part of `makeUtf8Const`. -/
def prepare (table : Utf8Table) : Except Failure Utf8Table :=
  if table.isFull then rehash table else .ok table

/-- The second part of `makeUtf8Const`: the constant is found or entered. -/
def enterUtf8Const (table : Utf8Table) (s : List (BitVec 8)) (address : Nat) :
    Except Failure (Utf8Const × Utf8Table) :=
  match table.utf8hash with
  | none => .error .null
  | some utf8hash =>
      match findUtf8hash utf8hash table.size s with
      | none => .error .endless
      | some index =>
          match utf8hash index with
          | .used m => .ok (m, table)
          | _ =>
              .ok (⟨address, stored s⟩,
                { table with
                  utf8hash := some (Function.update utf8hash index (.used ⟨address, stored s⟩))
                  count := table.count + 1 })

/-- `makeUtf8Const`; the address is what `gc_malloc` would return. -/
def makeUtf8Const (table : Utf8Table) (s : List (BitVec 8)) (address : Nat) :
    Except Failure (Utf8Const × Utf8Table) := do
  let ready ← prepare table
  enterUtf8Const ready s address

/-- `finalizeUtf8const`, which searches in the same way but takes each slot that is not
marked for a constant. -/
def finalizeUtf8const (table : Utf8Table) (m : Utf8Const) : Except Failure Utf8Table :=
  match table.utf8hash with
  | none => .error .null
  | some utf8hash =>
      match findUtf8hash utf8hash table.size m.data with
      | none => .error .endless
      | some index =>
          match utf8hash index with
          | .empty => .error .null
          | _ =>
              .ok { table with
                utf8hash := some (Function.update utf8hash index .deleted)
                count := table.count - 1 }

end LaTTe.Strings
