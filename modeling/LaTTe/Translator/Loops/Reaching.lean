import LaTTe.Translator.Loops.Chains
import Mathlib.Data.Finset.Lattice.Lemmas

namespace LaTTe.Translator.Loops

/-! The definitions that reach an instruction are those in its chain. -/

namespace InstrNode

variable (instr : InstrNode)

def destNumber : Option Nat :=
  match instr.destReg with
  | some (.var v) => some v.number
  | _ => none

def LastUses (number : Nat) : Prop :=
  ∃ v : Var, v.number = number ∧ .var v ∈ instr.srcRegs ∧ .var v ∈ instr.lastUsedRegs

def Passes (number : Nat) : Prop :=
  instr.destNumber ≠ some number ∧ ¬ instr.LastUses number

theorem destNumber_of_var {v : Var} (dest : instr.destReg = some (.var v)) :
    instr.destNumber = some v.number := by
  rw [destNumber, dest]

theorem exists_of_destNumber {number : Nat} (dest : instr.destNumber = some number) :
    ∃ v : Var, v.number = number ∧ instr.destReg = some (.var v) := by
  unfold destNumber at dest
  split at dest
  · rename_i v isVar
    exact ⟨v, Option.some.inj dest, isVar⟩
  · cases dest

end InstrNode

namespace Body

variable {body : Body}

private def Clears (body : Body) (i number : Nat) (reg : Reg) : Prop :=
  ∃ v : Var, v.number = number ∧ reg = .var v ∧ reg ∈ (body.instr i).lastUsedRegs

private theorem mem_foldl_clears {i j number : Nat} (regs : List Reg) (map : BvMap) :
    j ∈ regs.foldl
      (fun map reg =>
        match reg with
        | .var v =>
            if reg ∈ (body.instr i).lastUsedRegs then Function.update map v.number ∅ else map
        | .hard _ => map) map number ↔
    (∀ reg ∈ regs, ¬ Clears body i number reg) ∧ j ∈ map number := by
  induction regs generalizing map with
  | nil => simp
  | cons reg regs ih =>
      rw [List.foldl_cons, ih, List.forall_mem_cons, and_assoc,
        and_comm (a := ¬ Clears body i number reg), and_assoc]
      apply and_congr_right
      intro _
      cases reg with
      | hard register => simp [Clears]
      | var v =>
          by_cases last : .var v ∈ (body.instr i).lastUsedRegs
          · by_cases same : v.number = number
            · subst same
              simp [Clears, last]
            · simp [Clears, last, same, Function.update_of_ne (Ne.symm same)]
          · simp [Clears, last]

theorem mem_clearLastUses {map : BvMap} {i j number : Nat} :
    j ∈ body.clearLastUses map i number ↔
      ¬ (body.instr i).LastUses number ∧ j ∈ map number := by
  refine (mem_foldl_clears (body.instr i).srcRegs map).trans ?_
  apply and_congr_left
  intro _
  constructor
  · rintro none ⟨v, numbered, listed, last⟩
    exact none _ listed ⟨v, numbered, rfl, last⟩
  · rintro none reg listed ⟨v, numbered, same, last⟩
    subst same
    exact none ⟨v, numbered, listed, last⟩

theorem mem_firstRound {map : BvMap} {i j number : Nat} :
    j ∈ body.firstRound map i number ↔
      ((body.instr i).destNumber = some number ∧ j = i) ∨
        ((body.instr i).Passes number ∧ j ∈ map number) := by
  rw [firstRound, setDest, InstrNode.Passes, InstrNode.destNumber]
  cases (body.instr i).destReg with
  | none =>
      rw [mem_clearLastUses]
      simp
  | some reg =>
      cases reg with
      | hard register =>
          rw [mem_clearLastUses]
          simp
      | var v =>
          by_cases same : number = v.number
          · subst same
            simp
          · dsimp only
            rw [Function.update_of_ne same, mem_clearLastUses]
            simp [Ne.symm same]

/-! The rounds, instruction by instruction. -/

theorem succ_mod {n : Nat} (positive : 0 < n) (t : Nat) :
    (t + 1) % n = if t % n + 1 = n then 0 else t % n + 1 := by
  have below := Nat.mod_lt t positive
  have split : (t + 1) % n = (t % n + 1) % n := by
    rw [Nat.mod_add_mod]
  rw [split]
  by_cases last : t % n + 1 = n
  · rw [if_pos last, last, Nat.mod_self]
  · rw [if_neg last, Nat.mod_eq_of_lt]
    omega

def indexAt (body : Body) (t : Nat) : Nat :=
  body.size - 1 - t % body.size

def before (body : Body) (i : Nat) : Nat :=
  if i + 1 = body.size then 0 else i + 1

theorem before_lt {i : Nat} (inside : i < body.size) : body.before i < body.size := by
  rw [before]
  split <;> omega

theorem indexAt_lt (positive : 0 < body.size) (t : Nat) : body.indexAt t < body.size := by
  have below := Nat.mod_lt t positive
  rw [indexAt]
  omega

theorem indexAt_add_size (t : Nat) : body.indexAt (t + body.size) = body.indexAt t := by
  rw [indexAt, indexAt, Nat.add_mod_right]

theorem indexAt_of_lt {e : Nat} (below : e < body.size) : body.indexAt e = body.size - 1 - e := by
  rw [indexAt, Nat.mod_eq_of_lt below]

theorem indexAt_secondRound {i : Nat} (inside : i < body.size) :
    body.indexAt (2 * body.size - 1 - i) = i := by
  have turn : 2 * body.size - 1 - i = body.size - 1 - i + body.size := by omega
  rw [turn, indexAt_add_size, indexAt_of_lt (by omega)]
  omega

theorem before_indexAt_succ (positive : 0 < body.size) (t : Nat) :
    body.before (body.indexAt (t + 1)) = body.indexAt t := by
  have below := Nat.mod_lt t positive
  rw [before, indexAt, indexAt, succ_mod positive]
  split <;> split <;> omega

def mapAfter (body : Body) : Nat → BvMap
  | 0 => fun _ => ∅
  | t + 1 => body.firstRound (body.mapAfter t) (body.indexAt t)

theorem indexAt_onward {n t : Nat}
    (at_ : ∀ e < n + 1, body.indexAt (t + e) = n + 1 - 1 - e) :
    body.indexAt t = n ∧ ∀ e < n, body.indexAt (t + 1 + e) = n - 1 - e := by
  refine ⟨by simpa using at_ 0 (Nat.succ_pos n), fun e below => ?_⟩
  have later := at_ (e + 1) (Nat.succ_lt_succ below)
  rw [Nat.add_right_comm, Nat.add_assoc, later]
  omega

theorem downTo_firstRound {n t : Nat}
    (at_ : ∀ e < n, body.indexAt (t + e) = n - 1 - e) :
    downTo body.firstRound n (body.mapAfter t) = body.mapAfter (t + n) := by
  induction n generalizing t with
  | zero => rfl
  | succ n ih =>
      obtain ⟨now, onward⟩ := indexAt_onward at_
      rw [downTo, ← now]
      change downTo body.firstRound (body.indexAt t) (body.mapAfter (t + 1)) = _
      rw [now, ih onward, Nat.add_right_comm, Nat.add_assoc]

theorem downTo_secondRound {n t : Nat} {chains : Nat → Finset Nat}
    (at_ : ∀ e < n, body.indexAt (t + e) = n - 1 - e) (i : Nat) :
    (downTo body.secondRound n (chains, body.mapAfter t)).1 i =
      if i < n then chains i ∪ body.uses (body.mapAfter (t + (n - 1 - i))) i else chains i := by
  induction n generalizing t chains with
  | zero => rfl
  | succ n ih =>
      obtain ⟨now, onward⟩ := indexAt_onward at_
      have stepped : body.firstRound (body.mapAfter t) n = body.mapAfter (t + 1) := by
        rw [← now]
        rfl
      rw [downTo, secondRound, stepped, ih onward]
      by_cases here : i = n
      · subst here
        simp
      · rw [Function.update_of_ne here]
        by_cases below : i < n
        · rw [if_pos below, if_pos (Nat.lt_succ_of_lt below)]
          congr 3
          omega
        · rw [if_neg below, if_neg]
          omega

theorem buildVarUdChain_eq {i : Nat} (inside : i < body.size) :
    body.buildVarUdChain i = body.uses (body.mapAfter (2 * body.size - 1 - i)) i := by
  have first : ∀ e < body.size, body.indexAt (0 + e) = body.size - 1 - e := by
    intro e below
    rw [Nat.zero_add, indexAt_of_lt below]
  have second : ∀ e < body.size, body.indexAt (0 + body.size + e) = body.size - 1 - e := by
    intro e below
    rw [Nat.zero_add, Nat.add_comm, indexAt_add_size, indexAt_of_lt below]
  have round : downTo body.firstRound body.size (fun _ => ∅) = body.mapAfter (0 + body.size) :=
    downTo_firstRound first
  rw [buildVarUdChain, round, downTo_secondRound second, if_pos inside, Finset.empty_union]
  congr 2
  omega

theorem exists_of_mem_foldl_union {map : BvMap} {j : Nat} (numbers : List Nat)
    {bv : Finset Nat} (member : j ∈ numbers.foldl (fun bv n => bv ∪ map n) bv) :
    j ∈ bv ∨ ∃ number, j ∈ map number := by
  induction numbers generalizing bv with
  | nil => exact Or.inl member
  | cons number numbers ih =>
      rcases ih member with here | later
      · exact (Finset.mem_union.mp here).imp_right fun found => ⟨number, found⟩
      · exact Or.inr later

theorem exists_of_mem_outsideUses {map : BvMap} {i j : Nat}
    (member : j ∈ body.outsideUses map i) : ∃ number, j ∈ map number := by
  unfold outsideUses at member
  have none : j ∉ (∅ : Finset Nat) := Finset.notMem_empty j
  split at member
  · split at member
    · exact (exists_of_mem_foldl_union _ member).resolve_left none
    · exact (exists_of_mem_foldl_union _ member).resolve_left none
  · exact absurd member none

private theorem mem_foldl_uses {map : BvMap} {j : Nat} (regs : List Reg) (bv : Finset Nat) :
    j ∈ regs.foldl
      (fun bv reg =>
        match reg with
        | .var v => bv ∪ map v.number
        | .hard _ => bv) bv ↔
    j ∈ bv ∨ ∃ v : Var, .var v ∈ regs ∧ j ∈ map v.number := by
  induction regs generalizing bv with
  | nil => simp
  | cons reg regs ih =>
      rw [List.foldl_cons, ih]
      cases reg with
      | hard register => simp
      | var v =>
          simp only [Finset.mem_union, List.mem_cons, Reg.var.injEq, or_assoc]
          apply or_congr_right
          constructor
          · intro found
            rcases found with here | ⟨w, listed, found⟩
            · exact ⟨v, Or.inl rfl, here⟩
            · exact ⟨w, Or.inr listed, found⟩
          · rintro ⟨w, listed, found⟩
            rcases listed with rfl | listed
            · exact Or.inl found
            · exact Or.inr ⟨w, listed, found⟩

theorem mem_uses {map : BvMap} {i j : Nat} :
    j ∈ body.uses map i ↔ j ∈ body.outsideUses map i ∨
      ∃ v : Var, .var v ∈ (body.instr i).srcRegs ∧ j ∈ map v.number :=
  mem_foldl_uses (body.instr i).srcRegs (body.outsideUses map i)

/-- The definition of a variable by instruction `j`, that many instructions before `i`,
reaches `i`. -/
inductive ReachingDef (body : Body) (v : Var) : Nat → Nat → Nat → Prop where
  | here {i : Nat} (dest : (body.instr (body.before i)).destReg = some (.var v)) :
      ReachingDef body v i (body.before i) 1
  | earlier {i j distance : Nat} (passes : (body.instr (body.before i)).Passes v.number)
      (reaches : ReachingDef body v (body.before i) j distance) :
      ReachingDef body v i j (distance + 1)

namespace ReachingDef

variable {v w : Var} {i j distance : Nat}

theorem positive (reaches : body.ReachingDef v i j distance) : 0 < distance := by
  cases reaches with
  | here => exact Nat.one_pos
  | earlier => exact Nat.succ_pos _

theorem destReg (reaches : body.ReachingDef v i j distance) :
    (body.instr j).destReg = some (.var v) := by
  induction reaches with
  | here dest => exact dest
  | earlier _ _ ih => exact ih

theorem lt_size (reaches : body.ReachingDef v i j distance) (inside : i < body.size) :
    j < body.size := by
  induction reaches with
  | here => exact before_lt inside
  | earlier _ _ ih => exact ih (before_lt inside)

theorem unique {j' distance' : Nat} (reaches : body.ReachingDef v i j distance)
    (other : body.ReachingDef v i j' distance') : j = j' ∧ distance = distance' := by
  induction reaches generalizing distance' with
  | here dest =>
      cases other with
      | here => exact ⟨rfl, rfl⟩
      | earlier passes _ => exact absurd (InstrNode.destNumber_of_var _ dest) passes.1
  | earlier passes _ ih =>
      cases other with
      | here dest => exact absurd (InstrNode.destNumber_of_var _ dest) passes.1
      | earlier _ reaches =>
          obtain ⟨same, sameDistance⟩ := ih reaches
          exact ⟨same, congrArg Nat.succ sameDistance⟩

theorem executed (positive : 0 < body.size) {t : Nat}
    (reaches : body.ReachingDef v (body.indexAt t) j distance) (long : distance ≤ t) :
    body.indexAt (t - distance) = j ∧ ∀ u, t - distance < u → u < t →
      (body.instr (body.indexAt u)).Passes v.number := by
  generalize now : body.indexAt t = i at reaches
  induction reaches generalizing t with
  | here dest =>
      obtain ⟨before, rfl⟩ := Nat.exists_eq_succ_of_ne_zero (Nat.ne_of_gt long)
      rw [← now, Nat.succ_sub_one, Nat.succ_eq_add_one, before_indexAt_succ positive]
      refine ⟨rfl, fun u after below => ?_⟩
      omega
  | @earlier i j distance passes _ ih =>
      obtain ⟨before, rfl⟩ := Nat.exists_eq_succ_of_ne_zero (n := t) (by omega)
      rw [← now, Nat.succ_eq_add_one, before_indexAt_succ positive] at passes
      have here : body.indexAt before = body.before i := by
        rw [← now, Nat.succ_eq_add_one, before_indexAt_succ positive]
      obtain ⟨found, kept⟩ := ih (Nat.le_of_succ_le_succ long) here
      have same : before.succ - (distance + 1) = before - distance := by omega
      rw [same]
      refine ⟨found, fun u after below => ?_⟩
      by_cases last : u = before
      · rw [last]
        exact passes
      · exact kept u after (by omega)

theorem distance_le (inside : i < body.size) (reaches : body.ReachingDef v i j distance) :
    distance ≤ body.size := by
  have some_ : 0 < body.size := Nat.lt_of_le_of_lt (Nat.zero_le i) inside
  have now : body.indexAt (body.size - 1 - i + distance * body.size) = i := by
    rw [indexAt, Nat.add_mul_mod_self_right, Nat.mod_eq_of_lt (by omega)]
    omega
  have long : distance ≤ distance * body.size := Nat.le_mul_of_pos_right _ some_
  have dest := reaches.destReg
  rw [← now] at reaches
  obtain ⟨found, kept⟩ := reaches.executed some_ (Nat.le_add_left_of_le long)
  by_contra far
  have again := kept (body.size - 1 - i + distance * body.size - distance + body.size)
    (by omega) (by omega)
  rw [indexAt_add_size, found] at again
  exact again.1 (InstrNode.destNumber_of_var _ dest)

end ReachingDef

theorem mem_mapAfter (positive : 0 < body.size) {t j number : Nat} :
    j ∈ body.mapAfter t number ↔ ∃ (v : Var) (distance : Nat), v.number = number ∧
      distance ≤ t ∧ body.ReachingDef v (body.indexAt t) j distance := by
  induction t generalizing j with
  | zero =>
      constructor
      · intro member
        exact absurd member (Finset.notMem_empty j)
      · intro ⟨v, distance, _, long, reaches⟩
        exact absurd reaches.positive (Nat.not_lt.mpr long)
  | succ t ih =>
      rw [mapAfter, mem_firstRound, ih]
      have earlier : body.before (body.indexAt (t + 1)) = body.indexAt t :=
        before_indexAt_succ positive t
      constructor
      · intro found
        rcases found with ⟨dest, rfl⟩ | ⟨passes, v, distance, rfl, long, reaches⟩
        · obtain ⟨v, numbered, isVar⟩ := InstrNode.exists_of_destNumber _ dest
          refine ⟨v, 1, numbered, Nat.succ_le_succ (Nat.zero_le t), ?_⟩
          rw [← earlier] at isVar ⊢
          exact .here isVar
        · refine ⟨v, distance + 1, rfl, Nat.succ_le_succ long, ?_⟩
          rw [← earlier] at passes reaches
          exact .earlier passes reaches
      · intro ⟨v, distance, numbered, long, reaches⟩
        subst numbered
        cases reaches with
        | here dest =>
            rw [earlier] at dest ⊢
            exact Or.inl ⟨InstrNode.destNumber_of_var _ dest, rfl⟩
        | earlier passes reaches =>
            rw [earlier] at passes reaches
            exact Or.inr ⟨passes, v, _, rfl, Nat.le_of_succ_le_succ long, reaches⟩

theorem exists_of_mem_chain {i j : Nat} (inside : i < body.size)
    (member : j ∈ body.buildVarUdChain i) :
    ∃ (v : Var) (distance : Nat), body.ReachingDef v i j distance := by
  have positive : 0 < body.size := Nat.lt_of_le_of_lt (Nat.zero_le i) inside
  rw [buildVarUdChain_eq inside, mem_uses] at member
  obtain ⟨number, found⟩ : ∃ number, j ∈ body.mapAfter (2 * body.size - 1 - i) number := by
    rcases member with outside | ⟨v, _, found⟩
    · exact exists_of_mem_outsideUses outside
    · exact ⟨v.number, found⟩
  obtain ⟨v, distance, _, _, reaches⟩ := (mem_mapAfter positive).mp found
  rw [indexAt_secondRound inside] at reaches
  exact ⟨v, distance, reaches⟩

theorem mem_chain_iff {i j : Nat} (inside : i < body.size) {v : Var}
    (operand : .var v ∈ (body.instr i).srcRegs) :
    (j ∈ body.buildVarUdChain i ∧ (body.instr j).destReg = some (.var v)) ↔
      ∃ distance, body.ReachingDef v i j distance := by
  constructor
  · intro ⟨member, dest⟩
    obtain ⟨w, distance, reaches⟩ := exists_of_mem_chain inside member
    have same := reaches.destReg
    rw [dest] at same
    cases same
    exact ⟨distance, reaches⟩
  · intro ⟨distance, reaches⟩
    refine ⟨?_, reaches.destReg⟩
    have positive : 0 < body.size := Nat.lt_of_le_of_lt (Nat.zero_le i) inside
    have near := reaches.distance_le inside
    rw [buildVarUdChain_eq inside, mem_uses]
    refine Or.inr ⟨v, operand, (mem_mapAfter positive).mpr ⟨v, distance, rfl, by omega, ?_⟩⟩
    rw [indexAt_secondRound inside]
    exact reaches

end Body

end LaTTe.Translator.Loops
