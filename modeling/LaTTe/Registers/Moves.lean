import LaTTe.Registers.AllocStat
import LaTTe.Sparc.Word

namespace LaTTe.Registers

open LaTTe.Sparc (Word)

/-! The instructions that move variables. -/

/-- `ADD rd, rs, g0`, the moves of floating point registers, and loads and stores at an offset
from the frame pointer. -/
inductive Instr where
  | add (rd rs : Nat)
  | fmovs (rd rs : Nat)
  | fmovd (rd rs : Nat)
  | st (rs : Nat) (offset : Int)
  | stf (rs : Nat) (offset : Int)
  | stdf (rs : Nat) (offset : Int)
  | ld (rd : Nat) (offset : Int)
  | ldf (rd : Nat) (offset : Int)
  | lddf (rd : Nat) (offset : Int)
  deriving DecidableEq, Repr

abbrev IsInteger (r : Nat) : Prop := r < 32

abbrev IsFloat (r : Nat) : Prop := 32 ≤ r ∧ r < 64

abbrev IsPair (r : Nat) : Prop := IsFloat r ∧ r % 2 = 0

def g1 : Nat := 1

def g2 : Nat := 2

structure Machine where
  regs : Nat → Word
  frame : Int → Word

namespace Machine

variable (m : Machine)

def setReg (r : Nat) (value : Word) : Machine :=
  { m with regs := Function.update m.regs r value }

def setFrame (offset : Int) (value : Word) : Machine :=
  { m with frame := Function.update m.frame offset value }

def place (r : Nat) : Word :=
  if IsHW r then m.regs r else m.frame (getSpillOffset r)

def words (type : VarType) (r : Nat) : List Word :=
  if type = .double then
    if IsHW r then [m.place r, m.place (r + 1)] else [m.place (r + 1), m.place r]
  else [m.place r]

end Machine

/-- `none` where a register is not of the kind that the instruction takes, or an address is not
aligned. -/
def Instr.exec (m : Machine) : Instr → Option Machine
  | .add rd rs =>
      if IsInteger rd ∧ IsInteger rs then some (m.setReg rd (m.regs rs)) else none
  | .fmovs rd rs =>
      if IsFloat rd ∧ IsFloat rs then some (m.setReg rd (m.regs rs)) else none
  | .fmovd rd rs =>
      if IsPair rd ∧ IsPair rs then
        some ((m.setReg rd (m.regs rs)).setReg (rd + 1) (m.regs (rs + 1)))
      else none
  | .st rs offset =>
      if IsInteger rs ∧ offset % 4 = 0 then some (m.setFrame offset (m.regs rs)) else none
  | .stf rs offset =>
      if IsFloat rs ∧ offset % 4 = 0 then some (m.setFrame offset (m.regs rs)) else none
  | .stdf rs offset =>
      if IsPair rs ∧ offset % 8 = 0 then
        some ((m.setFrame offset (m.regs rs)).setFrame (offset + 4) (m.regs (rs + 1)))
      else none
  | .ld rd offset =>
      if IsInteger rd ∧ offset % 4 = 0 then some (m.setReg rd (m.frame offset)) else none
  | .ldf rd offset =>
      if IsFloat rd ∧ offset % 4 = 0 then some (m.setReg rd (m.frame offset)) else none
  | .lddf rd offset =>
      if IsPair rd ∧ offset % 8 = 0 then
        some ((m.setReg rd (m.frame offset)).setReg (rd + 1) (m.frame (offset + 4)))
      else none

def run (instrs : List Instr) (m : Machine) : Option Machine :=
  instrs.foldlM Instr.exec m

/-! The copies that the allocator inserts; `none` for types that it does not copy. -/

def generateCopy (type : VarType) (fromR toR : Nat) : Option (List Instr) :=
  match type with
  | .int | .ref | .long | .ivoid => some [.add toR fromR]
  | .float => some [.fmovs toR fromR]
  | .double => some [.fmovd toR fromR]
  | .cc | .fvoid => none

def generateSpillToStack (type : VarType) (fromR : Nat) (offset : Int) : Option (List Instr) :=
  match type with
  | .int | .ref | .long | .ivoid => some [.st fromR offset]
  | .float => if IsFloat fromR then some [.stf fromR offset] else some [.st fromR offset]
  | .double => some [.stdf fromR (offset - 4)]
  | .cc | .fvoid => none

def generateSpill (type : VarType) (fromR toR : Nat) : Option (List Instr) :=
  generateSpillToStack type fromR (getSpillOffset toR)

def generatePromotionFromStack (type : VarType) (offset : Int) (toR : Nat) :
    Option (List Instr) :=
  match type with
  | .int | .ref | .long | .ivoid => some [.ld toR offset]
  | .float => if IsFloat toR then some [.ldf toR offset] else some [.ld toR offset]
  | .double =>
      if (offset + 4) % 8 = 0 then some [.lddf toR (offset - 4)]
      else some [.ldf toR (offset + 4), .ldf (toR + 1) offset]
  | .cc | .fvoid => none

def generatePromotion (type : VarType) (fromR toR : Nat) : Option (List Instr) :=
  generatePromotionFromStack type (getSpillOffset fromR) toR

def generateGeneralCopy (type : VarType) (fromR toR : Nat) : Option (List Instr) :=
  if IsHW fromR ∧ IsHW toR then generateCopy type fromR toR
  else if IsHW fromR then generateSpill type fromR toR
  else if IsHW toR then generatePromotion type fromR toR
  else
    let first : List Instr := [.ld g1 (getSpillOffset fromR), .st g1 (getSpillOffset toR)]
    let second : List Instr :=
      [.ld g2 (getSpillOffset (fromR + 1)), .st g2 (getSpillOffset (toR + 1))]
    some (if type = .double then first ++ second else first)

/-- The places that variables of the type belong to. -/
def Suits (type : VarType) (r : Nat) : Prop :=
  match type with
  | .int | .ref | .long | .ivoid => IsInteger r ∨ regNumber ≤ r
  | .float => IsFloat r ∨ regNumber ≤ r
  | .double => (IsFloat r ∨ regNumber ≤ r) ∧ r % 2 = 0
  | .cc | .fvoid => False

instance (type : VarType) (r : Nat) : Decidable (Suits type r) := by
  unfold Suits
  split <;> infer_instance

def Brings (instrs : List Instr) (scratch : Nat → Prop) (type : VarType) (fromR toR : Nat) :
    Prop :=
  ∀ m, ∃ m', run instrs m = some m' ∧ m'.words type toR = m.words type fromR ∧
    ∀ s, s < toR ∨ toR + type.width ≤ s → ¬ scratch s → m'.place s = m.place s

namespace Suits

variable {type other : VarType} {r : Nat}

theorem below (suits : Suits type r) (hw : IsHW r) : r + type.width ≤ regNumber := by
  unfold VarType.width
  unfold Suits at suits
  unfold IsHW at hw
  split
  · rename_i double
    subst double
    unfold IsFloat regNumber at *
    omega
  · exact hw

theorem known (suits : Suits type r) : type ≠ .cc ∧ type ≠ .fvoid := by
  constructor
  · rintro rfl
    exact suits
  · rintro rfl
    exact suits

theorem even (suits : Suits type r) (double : type = .double) : r % 2 = 0 := by
  subst double
  exact suits.2

theorem slot {toR : Nat} (suits : Suits other r) (low : regNumber ≤ toR)
    (even : type = .double → toR % 2 = 0) (width : type.width = other.width) :
    Suits other toR := by
  cases other with
  | double =>
      refine ⟨.inr low, even ?_⟩
      rw [VarType.double_iff, width]
      rfl
  | int => exact .inr low
  | long => exact .inr low
  | ref => exact .inr low
  | ivoid => exact .inr low
  | float => exact .inr low
  | cc => exact absurd suits id
  | fvoid => exact absurd suits id

end Suits

section

variable {type : VarType} {fromR toR : Nat}

theorem getSpillOffset_inj {r s : Nat} : getSpillOffset r = getSpillOffset s ↔ r = s := by
  unfold getSpillOffset
  omega

theorem getSpillOffset_succ (r : Nat) : getSpillOffset (r + 1) = getSpillOffset r - 4 := by
  unfold getSpillOffset
  push_cast
  omega

theorem getSpillOffset_aligned (r : Nat) : getSpillOffset r % 4 = 0 := by
  unfold getSpillOffset
  omega

theorem getSpillOffset_pair {r : Nat} (even : r % 2 = 0) : (getSpillOffset r - 4) % 8 = 0 := by
  unfold getSpillOffset regNumber
  omega

namespace Machine

variable {m : Machine} {value : Word}

theorem place_reg {r : Nat} (hw : IsHW r) : m.place r = m.regs r := if_pos hw

theorem place_slot {r : Nat} (slot : regNumber ≤ r) :
    m.place r = m.frame (getSpillOffset r) := if_neg (Nat.not_lt.mpr slot)

theorem place_setReg {r : Nat} (hw : IsHW r) (s : Nat) :
    (m.setReg r value).place s = if s = r then value else m.place s := by
  by_cases same : s = r
  · subst same
    rw [if_pos rfl, place_reg hw]
    exact Function.update_self _ _ _
  · rw [if_neg same]
    by_cases hw' : IsHW s
    · rw [place_reg hw', place_reg hw']
      exact Function.update_of_ne same _ _
    · rw [place_slot (Nat.not_lt.mp hw'), place_slot (Nat.not_lt.mp hw')]
      rfl

theorem place_setFrame {r : Nat} (slot : regNumber ≤ r) (s : Nat) :
    (m.setFrame (getSpillOffset r) value).place s = if s = r then value else m.place s := by
  by_cases same : s = r
  · subst same
    rw [if_pos rfl, place_slot slot]
    exact Function.update_self _ _ _
  · rw [if_neg same]
    by_cases hw' : IsHW s
    · rw [place_reg hw', place_reg hw']
      rfl
    · rw [place_slot (Nat.not_lt.mp hw'), place_slot (Nat.not_lt.mp hw')]
      exact Function.update_of_ne (fun equal => same (getSpillOffset_inj.mp equal)) _ _

theorem words_single (single : type ≠ .double) (r : Nat) : m.words type r = [m.place r] :=
  if_neg single

theorem words_reg {r : Nat} (hw : IsHW r) : m.words .double r = [m.place r, m.place (r + 1)] := by
  rw [words, if_pos rfl, if_pos hw]

theorem words_slot {r : Nat} (slot : regNumber ≤ r) :
    m.words .double r = [m.place (r + 1), m.place r] := by
  rw [words, if_pos rfl, if_neg (Nat.not_lt.mpr slot)]

theorem words_congr {m' : Machine} {r : Nat}
    (same : ∀ s, r ≤ s → s < r + type.width → m'.place s = m.place s) :
    m'.words type r = m.words type r := by
  unfold words
  by_cases double : type = .double
  · rw [VarType.width, if_pos double] at same
    rw [same r (by omega) (by omega), same (r + 1) (by omega) (by omega)]
  · rw [VarType.width, if_neg double] at same
    rw [if_neg double, if_neg double, same r (by omega) (by omega)]

end Machine

theorem brings_single {instr : Instr} (single : type ≠ .double)
    (moves : ∀ m, ∃ m', instr.exec m = some m' ∧
      ∀ s, m'.place s = if s = toR then m.place fromR else m.place s) :
    Brings [instr] (fun _ => False) type fromR toR := by
  intro m
  obtain ⟨m', run, places⟩ := moves m
  refine ⟨m', by simp [Registers.run, run], ?_, ?_⟩
  · rw [Machine.words_single single, Machine.words_single single, places, if_pos rfl]
  · intro s outside _
    rw [VarType.width, if_neg single] at outside
    rw [places, if_neg (by omega)]

theorem brings_pair {instr : Instr} {scratch : Nat → Prop}
    (moves : ∀ m, ∃ m', instr.exec m = some m' ∧ m'.words .double toR = m.words .double fromR ∧
      ∀ s, s < toR ∨ toR + 2 ≤ s → m'.place s = m.place s) :
    Brings [instr] scratch .double fromR toR := by
  intro m
  obtain ⟨m', run, words, places⟩ := moves m
  exact ⟨m', by simp [Registers.run, run], words, fun s outside _ => places s outside⟩

theorem brings_add (from_int : IsInteger fromR) (to_int : IsInteger toR)
    (single : type ≠ .double) :
    Brings [.add toR fromR] (fun _ => False) type fromR toR := by
  apply brings_single single
  intro m
  have hw : IsHW fromR := Nat.lt_trans from_int (by decide)
  have hw' : IsHW toR := Nat.lt_trans to_int (by decide)
  refine ⟨_, if_pos ⟨to_int, from_int⟩, fun s => ?_⟩
  rw [Machine.place_setReg hw', Machine.place_reg hw]

theorem brings_fmovs (from_float : IsFloat fromR) (to_float : IsFloat toR)
    (single : type ≠ .double) :
    Brings [.fmovs toR fromR] (fun _ => False) type fromR toR := by
  apply brings_single single
  intro m
  have hw : IsHW fromR := Nat.lt_trans from_float.2 (by decide)
  have hw' : IsHW toR := Nat.lt_trans to_float.2 (by decide)
  refine ⟨_, if_pos ⟨to_float, from_float⟩, fun s => ?_⟩
  rw [Machine.place_setReg hw', Machine.place_reg hw]

theorem brings_fmovd (from_pair : IsPair fromR) (to_pair : IsPair toR) :
    Brings [.fmovd toR fromR] (fun _ => False) .double fromR toR := by
  apply brings_pair
  intro m
  unfold IsPair IsFloat at from_pair to_pair
  have hw : IsHW fromR ∧ IsHW (fromR + 1) ∧ IsHW toR ∧ IsHW (toR + 1) := by
    unfold IsHW regNumber
    omega
  obtain ⟨hwFrom, hwFrom', hwTo, hwTo'⟩ := hw
  refine ⟨_, if_pos ⟨to_pair, from_pair⟩, ?_, fun s outside => ?_⟩
  · rw [Machine.words_reg hwTo, Machine.words_reg hwFrom, Machine.place_setReg hwTo',
      Machine.place_setReg hwTo', Machine.place_setReg hwTo, Machine.place_reg hwFrom,
      Machine.place_reg hwFrom']
    simp
  · rw [Machine.place_setReg hwTo', Machine.place_setReg hwTo, if_neg (by omega),
      if_neg (by omega)]

theorem brings_store {instr : Instr} (hw : IsHW fromR) (slot : regNumber ≤ toR)
    (single : type ≠ .double)
    (exec : ∀ m : Machine, instr.exec m = some (m.setFrame (getSpillOffset toR) (m.regs fromR))) :
    Brings [instr] (fun _ => False) type fromR toR := by
  apply brings_single single
  intro m
  refine ⟨_, exec m, fun s => ?_⟩
  rw [Machine.place_setFrame slot, Machine.place_reg hw]

theorem brings_load {instr : Instr} (slot : regNumber ≤ fromR) (hw : IsHW toR)
    (single : type ≠ .double)
    (exec : ∀ m : Machine, instr.exec m = some (m.setReg toR (m.frame (getSpillOffset fromR)))) :
    Brings [instr] (fun _ => False) type fromR toR := by
  apply brings_single single
  intro m
  refine ⟨_, exec m, fun s => ?_⟩
  rw [Machine.place_setReg hw, Machine.place_slot slot]

theorem brings_stdf (from_pair : IsPair fromR) (slot : regNumber ≤ toR) (even : toR % 2 = 0) :
    Brings [.stdf fromR (getSpillOffset toR - 4)] (fun _ => False) .double fromR toR := by
  apply brings_pair
  intro m
  unfold IsPair IsFloat at from_pair
  have hw : IsHW fromR ∧ IsHW (fromR + 1) := by
    unfold IsHW regNumber
    omega
  have slot' : regNumber ≤ toR + 1 := Nat.le_succ_of_le slot
  refine ⟨_, if_pos ⟨from_pair, getSpillOffset_pair even⟩, ?_, fun s outside => ?_⟩
  · rw [Int.sub_add_cancel, ← getSpillOffset_succ, Machine.words_slot slot,
      Machine.words_reg hw.1, Machine.place_setFrame slot, Machine.place_setFrame slot,
      Machine.place_setFrame slot', Machine.place_reg hw.1, Machine.place_reg hw.2]
    simp
  · rw [Int.sub_add_cancel, ← getSpillOffset_succ, Machine.place_setFrame slot,
      Machine.place_setFrame slot', if_neg (by omega), if_neg (by omega)]

theorem brings_lddf (slot : regNumber ≤ fromR) (even : fromR % 2 = 0) (to_pair : IsPair toR) :
    Brings [.lddf toR (getSpillOffset fromR - 4)] (fun _ => False) .double fromR toR := by
  apply brings_pair
  intro m
  unfold IsPair IsFloat at to_pair
  have hw : IsHW toR ∧ IsHW (toR + 1) := by
    unfold IsHW regNumber
    omega
  have slot' : regNumber ≤ fromR + 1 := Nat.le_succ_of_le slot
  refine ⟨_, if_pos ⟨to_pair, getSpillOffset_pair even⟩, ?_, fun s outside => ?_⟩
  · rw [Int.sub_add_cancel, ← getSpillOffset_succ, Machine.words_slot slot,
      Machine.words_reg hw.1, Machine.place_setReg hw.2, Machine.place_setReg hw.2,
      Machine.place_setReg hw.1, Machine.place_slot slot, Machine.place_slot slot']
    simp
  · rw [Machine.place_setReg hw.2, Machine.place_setReg hw.1, if_neg (by omega),
      if_neg (by omega)]

theorem brings_generateCopy (hw : IsHW fromR) (hw' : IsHW toR) (suits : Suits type fromR)
    (suits' : Suits type toR) :
    ∃ instrs, generateCopy type fromR toR = some instrs ∧
      Brings instrs (fun _ => False) type fromR toR := by
  have low : ¬ regNumber ≤ fromR := Nat.not_le_of_lt hw
  have low' : ¬ regNumber ≤ toR := Nat.not_le_of_lt hw'
  cases type with
  | int => exact ⟨_, rfl, brings_add (suits.resolve_right low) (suits'.resolve_right low') nofun⟩
  | long => exact ⟨_, rfl, brings_add (suits.resolve_right low) (suits'.resolve_right low') nofun⟩
  | ref => exact ⟨_, rfl, brings_add (suits.resolve_right low) (suits'.resolve_right low') nofun⟩
  | ivoid =>
      exact ⟨_, rfl, brings_add (suits.resolve_right low) (suits'.resolve_right low') nofun⟩
  | float =>
      exact ⟨_, rfl, brings_fmovs (suits.resolve_right low) (suits'.resolve_right low') nofun⟩
  | double =>
      exact ⟨_, rfl, brings_fmovd ⟨suits.1.resolve_right low, suits.2⟩
        ⟨suits'.1.resolve_right low', suits'.2⟩⟩
  | cc => exact absurd suits id
  | fvoid => exact absurd suits id

theorem brings_generateSpill (hw : IsHW fromR) (slot : regNumber ≤ toR)
    (suits : Suits type fromR) (suits' : Suits type toR) :
    ∃ instrs, generateSpill type fromR toR = some instrs ∧
      Brings instrs (fun _ => False) type fromR toR := by
  have low : ¬ regNumber ≤ fromR := Nat.not_le_of_lt hw
  have aligned := getSpillOffset_aligned toR
  have st : ∀ {type}, type ≠ .double → IsInteger fromR →
      Brings [.st fromR (getSpillOffset toR)] (fun _ => False) type fromR toR :=
    fun single integer => brings_store hw slot single fun m => if_pos ⟨integer, aligned⟩
  cases type with
  | int => exact ⟨_, rfl, st nofun (suits.resolve_right low)⟩
  | long => exact ⟨_, rfl, st nofun (suits.resolve_right low)⟩
  | ref => exact ⟨_, rfl, st nofun (suits.resolve_right low)⟩
  | ivoid => exact ⟨_, rfl, st nofun (suits.resolve_right low)⟩
  | float =>
      have float := suits.resolve_right low
      exact ⟨_, if_pos float, brings_store hw slot nofun fun m => if_pos ⟨float, aligned⟩⟩
  | double =>
      exact ⟨_, rfl, brings_stdf ⟨suits.1.resolve_right low, suits.2⟩ slot suits'.2⟩
  | cc => exact absurd suits id
  | fvoid => exact absurd suits id

theorem brings_generatePromotion (slot : regNumber ≤ fromR) (hw : IsHW toR)
    (suits : Suits type fromR) (suits' : Suits type toR) :
    ∃ instrs, generatePromotion type fromR toR = some instrs ∧
      Brings instrs (fun _ => False) type fromR toR := by
  have low : ¬ regNumber ≤ toR := Nat.not_le_of_lt hw
  have aligned := getSpillOffset_aligned fromR
  have ld : ∀ {type}, type ≠ .double → IsInteger toR →
      Brings [.ld toR (getSpillOffset fromR)] (fun _ => False) type fromR toR :=
    fun single integer => brings_load slot hw single fun m => if_pos ⟨integer, aligned⟩
  cases type with
  | int => exact ⟨_, rfl, ld nofun (suits'.resolve_right low)⟩
  | long => exact ⟨_, rfl, ld nofun (suits'.resolve_right low)⟩
  | ref => exact ⟨_, rfl, ld nofun (suits'.resolve_right low)⟩
  | ivoid => exact ⟨_, rfl, ld nofun (suits'.resolve_right low)⟩
  | float =>
      have float := suits'.resolve_right low
      exact ⟨_, if_pos float, brings_load slot hw nofun fun m => if_pos ⟨float, aligned⟩⟩
  | double =>
      have even := getSpillOffset_pair suits.2
      exact ⟨_, if_pos (by omega),
        brings_lddf slot suits.2 ⟨suits'.1.resolve_right low, suits'.2⟩⟩
  | cc => exact absurd suits id
  | fvoid => exact absurd suits id

end

end LaTTe.Registers
