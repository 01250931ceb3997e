import LaTTe.Registers.ReturnMap

namespace LaTTe.Registers

/-! The map of the variables that is recorded at an instruction which may throw. -/

def VarType.code : VarType → Nat
  | .int => 1
  | .long => 2
  | .cc => 3
  | .float => 4
  | .double => 5
  | .ref => 6
  | .ivoid => 7
  | .fvoid => 8

/-- The numbers of variables of the graph, and those of the method in it that the instruction
belongs to. -/
structure Site where
  numLocals : Nat
  numStacks : Nat
  callerLocalNO : Nat
  callerStackNO : Nat
  localNO : Nat

namespace Site

def numVars (site : Site) : Nat := site.numLocals + site.numStacks + maxTempVar

def wordNO (site : Site) : Nat := site.callerLocalNO + site.localNO + site.callerStackNO

def number (site : Site) (vi : Nat) : Nat :=
  if vi < site.callerLocalNO + site.localNO then vi
  else if vi < site.wordNO then vi - (site.callerLocalNO + site.localNO) + site.numLocals
  else vi - site.wordNO + (site.numLocals + site.numStacks)

structure Sized (site : Site) : Prop where
  localNO : site.callerLocalNO + site.localNO ≤ site.numLocals
  stackNO : site.callerStackNO ≤ site.numStacks

theorem Sized.number_lt {site : Site} (sized : site.Sized) {vi vj : Nat} (before : vi < vj) :
    site.number vi < site.number vj := by
  have := sized.localNO
  have := sized.stackNO
  unfold number wordNO
  split_ifs <;> omega

end Site

namespace AllocStat

def recordWord (h : AllocStat) (number : Nat) : Nat :=
  match h.map number with
  | none => 2 ^ 32 - 1
  | some r => r ||| ((h.findRMap r 0).elim 0xf fun v => v.type.code) <<< 28

/-- `record_variable_map`, where all of the map is needed. -/
def recordVariableMap (site : Site) (h : AllocStat) (vi : Nat) : Nat :=
  if vi < site.callerLocalNO + site.localNO then h.recordWord vi
  else if vi < site.callerLocalNO + site.localNO + site.callerStackNO then
    h.recordWord (vi - (site.callerLocalNO + site.localNO) + site.numLocals)
  else
    h.recordWord (vi - (site.callerLocalNO + site.localNO + site.callerStackNO) +
      (site.numLocals + site.numStacks))

section

variable {numVars : Nat} {reserved : Nat → Bool} {h : AllocStat} {v : Var} {r n : Nat}

theorem recorded_none : recorded (2 ^ 32 - 1) = none := by
  decide

theorem recorded_pack {type : VarType} (small : r < 2 ^ 28 - 1) :
    recorded (r ||| type.code <<< 28) = some (type, r) := by
  have packed : r ||| type.code <<< 28 = type.code * 2 ^ 28 + r := by
    rw [Nat.or_comm, ← Nat.shiftLeft_add_eq_or_of_lt (by omega), Nat.shiftLeft_eq]
  have low : (type.code * 2 ^ 28 + r) % 2 ^ 28 = r := by omega
  have high : (type.code * 2 ^ 28 + r) / 2 ^ 28 = type.code := by omega
  rw [packed, recorded, low, high, if_neg (by omega)]
  cases type with
  | _ => rfl

theorem findRMap_zero (consistent : Consistent numVars reserved h) (member : v ∈ h.rmap r) :
    h.findRMap r 0 = (h.rmap r).head? := by
  have counted := consistent.refcount_of_mem member
  unfold findRMap
  rw [counted]
  cases vars : h.rmap r with
  | nil => rfl
  | cons first rest =>
      cases rest with
      | nil => rfl
      | cons second rest => rfl

/-- The word of a variable tells its place, and the type of the first variable there. -/
theorem recorded_recordWord (allocated : h.Allocated numVars reserved)
    (small : numVars ≤ 2 ^ 18) {type : VarType} :
    recorded (h.recordWord n) = some (type, r) ↔
      ∃ v ∈ h.rmap r, v.number = n ∧ (h.rmap r).head?.map Var.type = some type := by
  have consistent := allocated.consistent
  unfold recordWord
  cases found : h.map n with
  | none =>
      dsimp only
      rw [recorded_none]
      refine ⟨nofun, ?_⟩
      rintro ⟨v, member, rfl, _⟩
      exact absurd rfl (consistent.map_eq_none.mp found r v member)
  | some s =>
      obtain ⟨w, member, rfl⟩ := (consistent.map _ _).mp found
      dsimp only
      rw [findRMap_zero consistent member]
      cases vars : h.rmap s with
      | nil =>
          rw [vars] at member
          cases member
      | cons first rest =>
          have inside : first ∈ h.rmap s := vars ▸ List.mem_cons_self
          have placed := (consistent.placed s first inside).2
          have width := first.type.width_pos
          have bound : s < 2 ^ 28 - 1 := by
            unfold regNumber at placed
            omega
          rw [List.head?_cons, Option.elim_some, recorded_pack bound]
          constructor
          · intro same
            cases same
            exact ⟨w, member, rfl, by rw [vars]; rfl⟩
          · rintro ⟨v, member', same, type⟩
            obtain ⟨rfl, rfl⟩ := consistent.unique member' member same
            rw [vars] at type
            rw [Option.some.inj type]

end

/-- The map is that of a state of the allocator.  A double has both of its numbers among the
variables of the method or none. -/
structure RecordedFrom (h : AllocStat) (reserved : Nat → Bool) (site : Site) (map : Nat → Nat) :
    Prop where
  allocated : h.Allocated site.numVars reserved
  sized : site.Sized
  small : site.numVars ≤ 2 ^ 18
  whole : ∀ r, ∀ v ∈ h.rmap r, v.type = .double →
    v.number + 1 ≠ site.callerLocalNO + site.localNO ∧
      v.number + 1 ≠ site.numLocals + site.callerStackNO
  map : ∀ vi < site.wordNO + maxTempVar, map vi = h.recordVariableMap site vi

theorem recordVariableMap_eq (site : Site) (h : AllocStat) (vi : Nat) :
    h.recordVariableMap site vi = h.recordWord (site.number vi) := by
  unfold recordVariableMap Site.number Site.wordNO
  split_ifs <;> rfl

structure Tells (h : AllocStat) (n : Nat) (type : VarType) (r : Nat) (v : Var) : Prop where
  member : v ∈ h.rmap r
  number : v.number = n
  width : v.type.width = type.width
  suits : Suits type r
  available : isAvailable r

namespace RecordedFrom

variable {h : AllocStat} {reserved : Nat → Bool} {site : Site} {map : Nat → Nat} {vi r : Nat}
  {type : VarType}

theorem tells (recordedFrom : RecordedFrom h reserved site map)
    (inside : vi < site.wordNO + maxTempVar) (found : recorded (map vi) = some (type, r)) :
    ∃ v, Tells h (site.number vi) type r v := by
  have allocated := recordedFrom.allocated
  rw [recordedFrom.map vi inside, recordVariableMap_eq,
    recorded_recordWord allocated recordedFrom.small] at found
  obtain ⟨v, member, number, head⟩ := found
  obtain ⟨first, here, rfl⟩ := Option.map_eq_some_iff.mp head
  have first_mem : first ∈ h.rmap r := List.mem_of_head? here
  exact ⟨v, member, number, allocated.consistent.width_eq member first_mem,
    allocated.typed r first first_mem, allocated.available r first first_mem⟩

theorem number_succ (recordedFrom : RecordedFrom h reserved site map)
    (inside : vi < site.wordNO + maxTempVar) (found : recorded (map vi) = some (.double, r))
    (site' : Site) (locals : site'.callerLocalNO = site.callerLocalNO ∧
      site'.localNO = site.localNO ∧ site'.callerStackNO = site.callerStackNO) :
    site'.number (vi + 1) = site'.number vi + 1 := by
  obtain ⟨v, tells⟩ := recordedFrom.tells inside found
  have double := (VarType.double_iff _).mpr (tells.width.trans (VarType.width_double rfl))
  have ⟨apart, apart'⟩ := recordedFrom.whole r v tells.member double
  rw [tells.number] at apart apart'
  obtain ⟨same, same', same''⟩ := locals
  unfold Site.number Site.wordNO at *
  rw [same, same', same'']
  split_ifs at apart apart' ⊢ <;> omega

theorem behind (recordedFrom : RecordedFrom h reserved site map)
    (inside : vi + 1 < site.wordNO + maxTempVar)
    (found : recorded (map vi) = some (.double, r)) : recorded (map (vi + 1)) = none := by
  have before := Nat.lt_of_succ_lt inside
  obtain ⟨v, tells⟩ := recordedFrom.tells before found
  have next := recordedFrom.number_succ before found site ⟨rfl, rfl, rfl⟩
  cases found' : recorded (map (vi + 1)) with
  | none => rfl
  | some entry =>
      obtain ⟨v', tells'⟩ := recordedFrom.tells inside found'
      have numbers := tells'.number.trans next
      have width := tells.width.trans (VarType.width_double rfl)
      have apart := recordedFrom.allocated.consistent.apart r v tells.member _ v' tells'.member
        (by rw [numbers, tells.number]; omega)
      have := v'.type.width_pos
      have := tells.number
      unfold Apart at apart
      omega

end RecordedFrom

/-! The variables that a map is read as. -/

section

variable {words number : Nat → Nat}

theorem recordedVars_eq {left i : Nat} {skip : Bool}
    (gap : ∀ j r, i ≤ j → j + 1 < i + left → recorded (words j) = some (.double, r) →
      recorded (words (j + 1)) = none)
    (skipped : skip = true → left ≠ 0 → recorded (words i) = none) :
    recordedVars words number left i skip = (List.range' i left).filterMap fun j =>
      (recorded (words j)).map fun (type, r) => (⟨type, number j⟩, r) := by
  induction left generalizing i skip with
  | zero =>
      cases skip with
      | true => rfl
      | false => rfl
  | succ left ih =>
      have gap' : ∀ j r, i + 1 ≤ j → j + 1 < i + 1 + left →
          recorded (words j) = some (.double, r) → recorded (words (j + 1)) = none :=
        fun j r low high => gap j r (by omega) (by omega)
      rw [List.range'_succ]
      cases skip with
      | true =>
          rw [List.filterMap_cons_none (by rw [skipped rfl (Nat.succ_ne_zero left)]; rfl)]
          exact ih gap' nofun
      | false =>
          rw [recordedVars]
          cases found : recorded (words i) with
          | none =>
              rw [List.filterMap_cons_none (by rw [found]; rfl)]
              exact ih gap' nofun
          | some entry =>
              obtain ⟨type, r⟩ := entry
              rw [List.filterMap_cons_some (by rw [found]; rfl)]
              refine congrArg _ (ih gap' fun double more => ?_)
              rw [of_decide_eq_true double] at found
              exact gap i r le_rfl (by omega) found

end

end AllocStat

end LaTTe.Registers
