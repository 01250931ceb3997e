import LaTTe.Data.Arrays
import LaTTe.Registers.AllocStat
import Mathlib.Algebra.Group.Nat.Defs

namespace LaTTe.Registers.InMemory

open LaTTe.Data

/-! The status as it is in memory.  One variable of a place is in `rmap` itself, more of them
are in an array.  There is no result where an assertion fails, or where no array is at what is
taken for the address of one. -/

/-- A word of `rmap` or of an array. -/
inductive Entry where
  | null
  | var (v : Var)
  | array (address : Nat)
  deriving DecidableEq, Repr

namespace Entry

def number : Entry → Option Nat
  | null => some 0
  | var v => some v.number
  | array _ => none

/-- `Var_GetType`. -/
def type : Entry → Option VarType
  | var v => some v.type
  | _ => none

end Entry

structure AllocStat where
  map : Nat → Option Nat
  rmap : Nat → Entry
  refcount : Nat → Nat

namespace AllocStat

/-- `AllocStat_Init`. -/
def init : AllocStat where
  map := fun _ => none
  rmap := fun _ => .null
  refcount := fun _ => 0

def numOfLocations (numVars : Nat) : Nat :=
  regNumber + numVars

abbrev InRange (numVars : Nat) (v : Var) (r : Nat) : Prop :=
  v.number < numVars ∧ 0 < r ∧ r < numOfLocations numVars

def paired (h : AllocStat) (type : Option VarType) (r : Nat) : Option AllocStat :=
  if type = some .double ∧ h.refcount r ≠ h.refcount (r + 1) then none else some h

def findVariables (arrays : Arrays Entry) (h : AllocStat) (r : Nat) : Option (List Entry) :=
  match h.refcount r, h.rmap r with
  | 0, _ => none
  | 1, entry => some [entry]
  | count, .array address => some ((arrays.contents address).take count)
  | _, _ => none

def findRMap (arrays : Arrays Entry) (h : AllocStat) (r cnt : Nat) : Option Entry :=
  match h.refcount r, h.rmap r with
  | 0, _ => none
  | _, .null => none
  | 1, entry => some entry
  | _, .array address => (arrays.contents address)[cnt]?
  | _, .var _ => none

def listAt (arrays : Arrays Entry) (h : AllocStat) (r : Nat) : List Entry :=
  (List.range (h.refcount r)).filterMap (h.findRMap arrays r)

def appended (arrays : Arrays Entry) (h : AllocStat) (v : Var) (r : Nat) :
    Option (Arrays Entry × Entry) :=
  match h.refcount r, h.rmap r with
  | 0, _ => some (arrays, .var v)
  | 1, entry => some (arrays.alloc [entry, .var v], .array arrays.allocated)
  | count, .array address =>
      some (arrays.alloc ((arrays.contents address).take count ++ [.var v]),
        .array arrays.allocated)
  | _, _ => none

def appendRMap (numVars : Nat) (arrays : Arrays Entry) (h : AllocStat) (v : Var) (r : Nat) :
    Option (Arrays Entry × AllocStat) :=
  if InRange numVars v r ∧ v.type ≠ .fvoid then do
    let (arrays, entry) ← h.appended arrays v r
    let h ← paired { h with
      rmap := Function.update h.rmap r entry
      refcount := Registers.AllocStat.countUp h.refcount v.type r } (some v.type) r
    some (arrays, h)
  else
    none

/-- What is taken out of `rmap[r]`, and what is left there.  An array of more than two is
changed in place.  Nothing is found where the source has `-1`. -/
def removed (arrays : Arrays Entry) (h : AllocStat) (number r : Nat) :
    Option (Arrays Entry × Option Entry × Entry) :=
  match h.refcount r, h.rmap r with
  | 0, _ => none
  | 1, entry => some (arrays, some entry, .null)
  | 2, .array address =>
      match arrays.contents address with
      | first :: second :: _ =>
          if first.number = some number then some (arrays, some first, second)
          else some (arrays, some second, first)
      | _ => none
  | count, .array address =>
      let t := arrays.contents address
      match (t.take count).findIdx? fun entry => entry.number = some number with
      | some i =>
          some (arrays.write address (Arrays.closeGap t i count), t[i]?, .array address)
      | none => some (arrays, none, .array address)
  | _, _ => none

def removeRMap (numVars : Nat) (arrays : Arrays Entry) (h : AllocStat) (v : Var) (r : Nat) :
    Option (Arrays Entry × AllocStat) :=
  if InRange numVars v r then do
    let (arrays, found, entry) ← h.removed arrays v.number r
    let type := found.bind Entry.type
    let h ← paired { h with
      rmap := Function.update h.rmap r entry
      refcount := Registers.AllocStat.countDown h.refcount type r } type r
    some (arrays, h)
  else
    none

def insert (numVars : Nat) (arrays : Arrays Entry) (h : AllocStat) (v : Var) (r : Nat) :
    Option (Arrays Entry × AllocStat) :=
  if InRange numVars v r ∧ v.type ≠ .fvoid then do
    let (arrays, h) ← match h.map v.number with
      | some old => if 0 < old then h.removeRMap numVars arrays v old else some (arrays, h)
      | none => some (arrays, h)
    { h with map := Function.update h.map v.number (some r) }.appendRMap numVars arrays v r
  else
    none

/-- A variable that is nowhere has `-1` for its place, which the assertions exclude. -/
def erase (numVars : Nat) (arrays : Arrays Entry) (h : AllocStat) (v : Var) :
    Option (Arrays Entry × AllocStat) := do
  let r ← h.map v.number
  { h with map := Function.update h.map v.number none }.removeRMap numVars arrays v r

def changeMappedReg (numVars : Nat) (arrays : Arrays Entry) (h : AllocStat) (v : Var) (r : Nat) :
    Option (Arrays Entry × AllocStat) :=
  if InRange numVars v r then do
    let old ← h.map v.number
    let (arrays, h) ←
      { h with map := Function.update h.map v.number (some r) }.removeRMap numVars arrays v old
    let (arrays, h) ← h.appendRMap numVars arrays v r
    let h ← h.paired (some v.type) r
    some (arrays, h)
  else
    none

abbrev IsRegister (r : Nat) : Prop :=
  r < 2 ^ 18

def changeMap (r1 r2 : Nat) (map : Nat → Option Nat) (entry : Entry) : Option (Nat → Option Nat) := do
  let number ← entry.number
  if map number = some r1 then some (Function.update map number (some r2)) else none

def changeReg (numVars : Nat) (arrays : Arrays Entry) (h : AllocStat) (r1 r2 : Nat) :
    Option AllocStat :=
  if IsRegister r1 ∧ IsRegister r2 ∧ 0 < r1 ∧ r1 < numOfLocations numVars ∧ 0 < r2 ∧
      r2 < numOfLocations numVars ∧ 0 < h.refcount r1 ∧ h.refcount r2 = 0 then do
    let h := { h with
      rmap := Function.update (Function.update h.rmap r2 (h.rmap r1)) r1 .null
      refcount := Function.update (Function.update h.refcount r2 (h.refcount r1)) r1 0 }
    let t ← h.findVariables arrays r2
    let type := (← t.head?).type
    let h ← paired { h with
      refcount :=
        if type = some .double then
          Function.update (Function.update h.refcount (r2 + 1) (h.refcount (r1 + 1))) (r1 + 1) 0
        else h.refcount } type r2
    let map ← t.foldlM (changeMap r1 r2) h.map
    if h.refcount r1 = 0 ∧ 0 < h.refcount r2 then some { h with map := map } else none
  else
    none

def cloneEntry (h : AllocStat) (clone : Arrays Entry × (Nat → Entry)) (i : Nat) :
    Option (Arrays Entry × (Nat → Entry)) :=
  let (arrays, rmap) := clone
  match h.refcount i, h.rmap i with
  | 0, _ => some (arrays, rmap)
  | 1, entry => some (arrays, Function.update rmap i entry)
  | count, .array address =>
      some (arrays.alloc ((arrays.contents address).take count),
        Function.update rmap i (.array arrays.allocated))
  | count, .null => if count = h.refcount (i - 1) then some (arrays, rmap) else none
  | _, .var _ => none

def clone (numVars : Nat) (arrays : Arrays Entry) (h : AllocStat) :
    Option (Arrays Entry × AllocStat) := do
  let (arrays, rmap) ←
    (List.range (numOfLocations numVars)).foldlM h.cloneEntry (arrays, fun _ => .null)
  some (arrays, { map := h.map, rmap := rmap, refcount := h.refcount })

end AllocStat

end LaTTe.Registers.InMemory
