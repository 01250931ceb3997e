import LaTTe.Registers.Allocated

namespace LaTTe.Registers

/-! The places of the caller's variables, as they are recorded at a call. -/

def VarType.ofCode : Nat → Option VarType
  | 1 => some .int
  | 2 => some .long
  | 3 => some .cc
  | 4 => some .float
  | 5 => some .double
  | 6 => some .ref
  | 7 => some .ivoid
  | 8 => some .fvoid
  | _ => none

def recorded (word : Nat) : Option (VarType × Nat) :=
  let reg := word % 2 ^ 28
  if reg = 0x0fffffff then none else (VarType.ofCode (word / 2 ^ 28)).map fun type => (type, reg)

structure TranslationInfo where
  retMap : Nat → Nat
  callerLocalNO : Nat
  callerStackNO : Nat
  returnAddr : Nat

def maxTempVar : Nat := 75

namespace AllocStat

/-- The loop over `left` words from `i` on; the word behind a double is skipped. -/
def insertRecorded (words : Nat → Nat) (number : Nat → Nat) :
    (left i : Nat) → (skip : Bool) → AllocStat → AllocStat
  | 0, _, _, h => h
  | left + 1, i, true, h => insertRecorded words number left (i + 1) false h
  | left + 1, i, false, h =>
      match recorded (words i) with
      | none => insertRecorded words number left (i + 1) false h
      | some (type, reg) =>
          insertRecorded words number left (i + 1) (type = .double)
            (h.insert ⟨type, number i⟩ reg)

/-- `RegAlloc_make_exception_return_map`.  The variables of the caller are the first ones of
their storage in the handler's graph. -/
def makeExceptionReturnMap (info : TranslationInfo) (numLocals numStacks : Nat) : AllocStat :=
  let h := insertRecorded info.retMap (fun i => i) info.callerLocalNO 0 false init
  let h := insertRecorded (fun i => info.retMap (i + info.callerLocalNO))
    (fun i => i + numLocals) info.callerStackNO 0 false h
  if info.returnAddr ≠ 0 then
    insertRecorded (fun i => info.retMap (i + (info.callerLocalNO + info.callerStackNO)))
      (fun i => i + numLocals + numStacks) maxTempVar 0 false h
  else h

/-! What is recorded. -/

def recordedVars (words : Nat → Nat) (number : Nat → Nat) :
    (left i : Nat) → (skip : Bool) → List (Var × Nat)
  | 0, _, _ => []
  | left + 1, i, true => recordedVars words number left (i + 1) false
  | left + 1, i, false =>
      match recorded (words i) with
      | none => recordedVars words number left (i + 1) false
      | some (type, reg) =>
          (⟨type, number i⟩, reg) :: recordedVars words number left (i + 1) (type = .double)

def callerVars (info : TranslationInfo) (numLocals numStacks : Nat) : List (Var × Nat) :=
  recordedVars info.retMap (fun i => i) info.callerLocalNO 0 false ++
  recordedVars (fun i => info.retMap (i + info.callerLocalNO)) (fun i => i + numLocals)
    info.callerStackNO 0 false ++
  if info.returnAddr ≠ 0 then
    recordedVars (fun i => info.retMap (i + (info.callerLocalNO + info.callerStackNO)))
      (fun i => i + numLocals + numStacks) maxTempVar 0 false
  else []

def InGraph (numVars : Nat) (v : Var) (r : Nat) : Prop :=
  0 < r ∧ r + v.type.width ≤ regNumber + numVars

/-- The variable and its recorded place are in the arrays of the handler's graph. -/
def Recordable (numVars : Nat) (p : Var × Nat) : Prop :=
  InGraph numVars p.1 p.2 ∧ p.1.number + p.1.type.width ≤ numVars

section

variable {numVars siteVars : Nat} {h : AllocStat} {vars : List (Var × Nat)} {v w : Var} {r s : Nat}

theorem insertRecorded_eq (words : Nat → Nat) (number : Nat → Nat) (left i : Nat) (skip : Bool)
    (h : AllocStat) :
    insertRecorded words number left i skip h =
      h.insertAll (recordedVars words number left i skip) := by
  induction left generalizing i skip h with
  | zero => rfl
  | succ left ih =>
      cases skip with
      | true => exact ih (i + 1) false h
      | false =>
          rw [insertRecorded, recordedVars]
          cases recorded (words i) with
          | none => exact ih (i + 1) false h
          | some entry => exact ih (i + 1) _ _

theorem insertAll_append (vars vars' : List (Var × Nat)) (h : AllocStat) :
    h.insertAll (vars ++ vars') = (h.insertAll vars).insertAll vars' :=
  List.foldl_append

theorem makeExceptionReturnMap_eq (info : TranslationInfo) (numLocals numStacks : Nat) :
    makeExceptionReturnMap info numLocals numStacks =
      init.insertAll (callerVars info numLocals numStacks) := by
  unfold makeExceptionReturnMap callerVars
  rw [insertAll_append, insertAll_append]
  simp only [insertRecorded_eq]
  split
  · rfl
  · rfl

theorem WellRecorded.within (recorded : WellRecorded siteVars vars)
    (inside : ∀ p ∈ vars, Recordable numVars p) : WellRecorded numVars vars where
  placed p member :=
    ⟨(inside p member).1, (inside p member).2, (recorded.placed p member).suits,
      (recorded.placed p member).available⟩
  compatible := recorded.compatible

theorem makeExceptionReturnMap_allocated {info : TranslationInfo} {numLocals numStacks : Nat}
    (recorded : WellRecorded numVars (callerVars info numLocals numStacks)) :
    (makeExceptionReturnMap info numLocals numStacks).Allocated numVars (fun _ => false) ∧
      ∀ v r, v ∈ (makeExceptionReturnMap info numLocals numStacks).rmap r ↔
        (v, r) ∈ callerVars info numLocals numStacks := by
  rw [makeExceptionReturnMap_eq]
  obtain ⟨allocated, members⟩ := allocated_init.insertAll recorded nofun
  refine ⟨allocated, fun v r => (members v r).trans ?_⟩
  exact or_iff_right nofun

end

end AllocStat

end LaTTe.Registers
