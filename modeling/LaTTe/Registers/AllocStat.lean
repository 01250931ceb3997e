import Mathlib.Data.List.Nodup
import Mathlib.Logic.Function.Basic

namespace LaTTe.Registers

/-! Which variable is in which place: registers first, and spill slots from
`regNumber` on. -/

inductive VarType where
  | int | long | cc | float | double | ref | ivoid | fvoid
  deriving DecidableEq, Repr

/-- A variable with its type and its `CFG_get_var_number`. -/
structure Var where
  type : VarType
  number : Nat
  deriving DecidableEq, Repr

def VarType.width (type : VarType) : Nat := if type = .double then 2 else 1

theorem VarType.width_pos (type : VarType) : 0 < type.width := by
  unfold VarType.width
  split <;> decide

theorem VarType.width_double {type : VarType} (double : type = .double) : type.width = 2 :=
  if_pos double

theorem VarType.width_single {type : VarType} (single : type ≠ .double) : type.width = 1 :=
  if_neg single

theorem VarType.double_iff (type : VarType) : type = .double ↔ type.width = 2 := by
  by_cases double : type = .double
  · simp [double, width]
  · simp [double, width]

def regNumber : Nat := 72

/-- `Reg_IsHW`. -/
abbrev IsHW (r : Nat) : Prop := r < regNumber

def getSpillOffset (r : Nat) : Int := -12 - 4 * ((r : Int) - regNumber)

/-- `map` and its reverse.  The second place of a double has no entry in `rmap`, but its
`refcount` is that of the first. -/
structure AllocStat where
  map : Nat → Option Nat
  rmap : Nat → List Var
  refcount : Nat → Nat

namespace AllocStat

/-- `AllocStat_Init`. -/
def init : AllocStat where
  map := fun _ => none
  rmap := fun _ => []
  refcount := fun _ => 0

def find (h : AllocStat) (v : Var) : Option Nat := h.map v.number

/-- A single entry is returned for any `cnt`. -/
def findRMap (h : AllocStat) (r : Nat) (cnt : Nat) : Option Var :=
  match h.refcount r with
  | 0 => none
  | 1 => (h.rmap r).head?
  | _ => (h.rmap r)[cnt]?

def countUp (refcount : Nat → Nat) (type : VarType) (r : Nat) : Nat → Nat :=
  let refcount := Function.update refcount r (refcount r + 1)
  if type = .double then Function.update refcount (r + 1) (refcount (r + 1) + 1) else refcount

def countDown (refcount : Nat → Nat) (type : Option VarType) (r : Nat) : Nat → Nat :=
  let refcount := Function.update refcount r (refcount r - 1)
  if type = some .double then Function.update refcount (r + 1) (refcount (r + 1) - 1)
  else refcount

def appendRMap (h : AllocStat) (v : Var) (r : Nat) : AllocStat :=
  { h with
    rmap := Function.update h.rmap r (if h.refcount r = 0 then [v] else h.rmap r ++ [v])
    refcount := countUp h.refcount v.type r }

/-- The entry that `AllocStat_RemoveRMap` takes out, and what it leaves.  Only one of two is
compared with `v`, and one alone is not. -/
def takeOut (refcount : Nat) (number : Nat) (vars : List Var) : Option Var × List Var :=
  match refcount, vars with
  | 1, vars => (vars.head?, [])
  | 2, [first, second] =>
      if first.number = number then (some first, [second]) else (some second, [first])
  | _, vars => (vars.find? (·.number = number), vars.eraseP (·.number = number))

def removeRMap (h : AllocStat) (v : Var) (r : Nat) : AllocStat :=
  let (found, rest) := takeOut (h.refcount r) v.number (h.rmap r)
  { h with
    rmap := Function.update h.rmap r rest
    refcount := countDown h.refcount (found.map Var.type) r }

def insert (h : AllocStat) (v : Var) (r : Nat) : AllocStat :=
  let h := match h.map v.number with
    | some old => h.removeRMap v old
    | none => h
  { h with map := Function.update h.map v.number (some r) }.appendRMap v r

/-- `none` where the variable is nowhere. -/
def erase (h : AllocStat) (v : Var) : Option AllocStat :=
  (h.map v.number).map fun r =>
    { h with map := Function.update h.map v.number none }.removeRMap v r

/-- `none` where the variable is nowhere. -/
def changeMappedReg (h : AllocStat) (v : Var) (r : Nat) : Option AllocStat :=
  (h.map v.number).map fun old =>
    ({ h with map := Function.update h.map v.number (some r) }.removeRMap v old).appendRMap v r

/-- `none` where there is no variable at `r1`. -/
def changeReg (h : AllocStat) (r1 r2 : Nat) : Option AllocStat :=
  let rmap := Function.update (Function.update h.rmap r2 (h.rmap r1)) r1 []
  let refcount := Function.update (Function.update h.refcount r2 (h.refcount r1)) r1 0
  (rmap r2).head?.map fun t =>
    { map := fun n => if ∃ v ∈ rmap r2, v.number = n then some r2 else h.map n
      rmap := rmap
      refcount :=
        if t.type = .double then
          Function.update (Function.update refcount (r2 + 1) (refcount (r1 + 1))) (r1 + 1) 0
        else refcount }

def findFreeReg (h : AllocStat) : VarType → Option Nat
  | .int | .ref | .ivoid | .long =>
      (List.range' 16 8 ++ List.range' 24 6 ++ List.range' 8 6).find? fun r => h.refcount r = 0
  | .float | .fvoid => (List.range' 32 32).find? fun r => h.refcount r = 0
  | .double =>
      (List.range' 32 16 2).find? fun r => h.refcount r = 0 ∧ h.refcount (r + 1) = 0
  | .cc => none

def findFreeNonCallerSaveReg (h : AllocStat) : VarType → Option Nat
  | .int | .ref | .ivoid | .long =>
      (List.range' 16 8 ++ List.range' 24 6).find? fun r => h.refcount r = 0
  | .float | .double | .fvoid | .cc => none

/-- The places from `start` in steps of two whose neighbour is one too. -/
def pairStarts (start stop : Nat) : List Nat :=
  List.range' start ((stop - start) / 2) 2

/-- `none` where there is no more spill register. -/
def findFreeSpill (numVars : Nat) (h : AllocStat) : VarType → Option Nat
  | .int | .ref | .long | .ivoid | .float | .fvoid =>
      (List.range' regNumber numVars).find? fun r => h.refcount r = 0
  | .double =>
      let start := if (getSpillOffset (regNumber + 1)).tmod 8 ≠ 0 then regNumber + 1
        else regNumber
      (pairStarts start (regNumber + numVars)).find? fun r =>
        h.refcount r = 0 ∧ h.refcount (r + 1) = 0
  | .cc => none

end AllocStat

end LaTTe.Registers
