import LaTTe.Data.OpenAddressing
import Mathlib.Data.BitVec

namespace LaTTe.Strings

open LaTTe.Data (Slot)

/-! The table of the interned strings. -/

/-- A `java.lang.String` by its address; its characters never change. -/
structure JavaString where
  address : Nat
  chars : List (BitVec 16)
  deriving DecidableEq, Repr

/-- The loop of `hashChars` for long strings, of at most `fuel` rounds. -/
def hashSkipping (chars : List (BitVec 16)) (skip : Nat) : Nat → Nat → BitVec 32 → BitVec 32
  | 0, _, hash => hash
  | fuel + 1, index, hash =>
      if index + skip < chars.length then
        hashSkipping chars skip fuel (index + skip)
          (39 * hash + (chars.getD (index + skip) 0).setWidth 32)
      else hash

/-- `hashChars`.  The first unit is read before the length is tested: for the empty string
it is what happens to be `beyond` its characters. -/
def hashChars (beyond : BitVec 16) (chars : List (BitVec 16)) : BitVec 32 :=
  let hash := (chars.headD beyond).setWidth 32
  if chars.length ≤ 15 then chars.tail.foldl (fun hash c => 37 * hash + c.setWidth 32) hash
  else hashSkipping chars (chars.length / 8) chars.length 0 hash

def stepOf (hash : BitVec 32) : Nat :=
  (8 * hash + 7).toNat

/-- The loop of `findInternSlot`; none if it aborts, when it is back at the start after
`fuel` rounds. -/
def findSlotFrom (strhash : Nat → Slot JavaString) (size : Nat) (chars : List (BitVec 16))
    (start step : Nat) : Nat → Nat → Option Nat → Option Nat
  | 0, _, _ => none
  | fuel + 1, index, deleted =>
      let onward (deleted : Option Nat) :=
        let next := (index + step) &&& (size - 1)
        if next = start then none
        else findSlotFrom strhash size chars start step fuel next deleted
      match strhash index with
      | .empty => some (deleted.getD index)
      | .deleted => onward (some index)
      | .used str => if str.chars = chars then some index else onward deleted

def findInternSlot (strhash : Nat → Slot JavaString) (size : Nat) (chars : List (BitVec 16))
    (hash : BitVec 32) : Option Nat :=
  let start := hash.toNat &&& (size - 1)
  findSlotFrom strhash size chars start (stepOf hash) size start none

inductive StringFailure where
  | abort
  | endless
  | null
  deriving DecidableEq, Repr

structure StringTable where
  strhash : Option (Nat → Slot JavaString)
  size : Nat
  count : Nat

namespace StringTable

def initial : StringTable :=
  ⟨none, 0, 0⟩

def isFull (table : StringTable) : Prop :=
  4 * table.count ≥ 3 * table.size

instance (table : StringTable) : Decidable table.isFull :=
  inferInstanceAs (Decidable (_ ≥ _))

end StringTable

/-- The first free slot in `rehashStrings`, of at most `fuel` that are looked at. -/
def freeFrom (strhash : Nat → Slot JavaString) (size step : Nat) : Nat → Nat → Option Nat
  | 0, _ => none
  | fuel + 1, index =>
      match strhash index with
      | .empty => some index
      | _ => freeFrom strhash size step fuel ((index + step) &&& (size - 1))

def rehashString (beyond : JavaString → BitVec 16) (old : Nat → Slot JavaString) (size : Nat)
    (new : Nat → Slot JavaString) (i : Nat) : Except StringFailure (Nat → Slot JavaString) :=
  match old i with
  | .used str =>
      let hash := hashChars (beyond str) str.chars
      match freeFrom new size (stepOf hash) size (hash.toNat &&& (size - 1)) with
      | some index => .ok (Function.update new index (.used str))
      | none => .error .endless
  | _ => .ok new

def rehashStrings (beyond : JavaString → BitVec 16) (table : StringTable) :
    Except StringFailure StringTable :=
  match table.strhash with
  | none => .ok ⟨some fun _ => .empty, 1024, table.count⟩
  | some old => do
      let size := table.size * 2
      let new ← (List.range table.size).reverse.foldlM (rehashString beyond old size)
        fun _ => .empty
      .ok ⟨some new, size, table.count⟩

def prepareStrings (beyond : JavaString → BitVec 16) (table : StringTable) :
    Except StringFailure StringTable :=
  if table.isFull then rehashStrings beyond table else .ok table

/-- A string is found, or `str` is entered; `unit` is what is read beyond its characters. -/
def enterString (unit : BitVec 16) (table : StringTable) (str : JavaString) :
    Except StringFailure (JavaString × StringTable) :=
  match table.strhash with
  | none => .error .null
  | some strhash =>
      match findInternSlot strhash table.size str.chars (hashChars unit str.chars) with
      | none => .error .abort
      | some index =>
          match strhash index with
          | .used found => .ok (found, table)
          | _ =>
              .ok (str,
                { table with
                  strhash := some (Function.update strhash index (.used str))
                  count := table.count + 1 })

/-- What both ways of interning do; `beyond` is what is in memory after the characters of
the strings of the table, and `unit` what is after those that are looked for. -/
def internString (beyond : JavaString → BitVec 16) (unit : BitVec 16) (table : StringTable)
    (str : JavaString) : Except StringFailure (JavaString × StringTable) := do
  let ready ← prepareStrings beyond table
  enterString unit ready str

def internJavaString (beyond : JavaString → BitVec 16) (table : StringTable) (str : JavaString) :
    Except StringFailure (JavaString × StringTable) :=
  internString beyond (beyond str) table str

/-- The second half of `Utf8Const2JavaString`, with the characters in a buffer, of which
`unit` is the first if there are none.  The address is that of a new object. -/
def utf8Const2JavaString (beyond : JavaString → BitVec 16) (unit : BitVec 16)
    (table : StringTable) (chars : List (BitVec 16)) (address : Nat) :
    Except StringFailure (JavaString × StringTable) :=
  internString beyond unit table ⟨address, chars⟩

def uninternJavaString (beyond : JavaString → BitVec 16) (table : StringTable)
    (str : JavaString) : Except StringFailure StringTable :=
  match table.strhash with
  | none => .error .null
  | some strhash =>
      match findInternSlot strhash table.size str.chars (hashChars (beyond str) str.chars) with
      | none => .error .abort
      | some index =>
          match strhash index with
          | .used _ =>
              .ok { table with
                strhash := some (Function.update strhash index .deleted)
                count := table.count - 1 }
          | _ => .ok table

end LaTTe.Strings
