import LaTTe.Registers.Operations

namespace LaTTe.Registers

/-! A status may have variables whose numbers are next to each other.  With every number
doubled, the numbers of doubles are apart, and what is known of such states applies. -/

def Var.spread (v : Var) : Var :=
  { v with number := 2 * v.number }

@[simp] theorem Var.spread_number (v : Var) : v.spread.number = 2 * v.number :=
  rfl

@[simp] theorem Var.spread_type (v : Var) : v.spread.type = v.type :=
  rfl

theorem Var.spread_number_eq (v : Var) (n : Nat) : v.spread.number = 2 * n ↔ v.number = n :=
  Nat.mul_right_inj (by decide)

theorem VarType.width_le (type : VarType) : type.width ≤ 2 := by
  unfold VarType.width
  split <;> decide

namespace AllocStat

def spread (h : AllocStat) : AllocStat where
  map := fun m => if m % 2 = 0 then h.map (m / 2) else none
  rmap := fun r => (h.rmap r).map Var.spread
  refcount := h.refcount

variable {h : AllocStat}

theorem spread_map (h : AllocStat) (n : Nat) : h.spread.map (2 * n) = h.map n := by
  rw [spread]
  dsimp only
  rw [if_pos (Nat.mul_mod_right 2 n), Nat.mul_div_cancel_left n (by decide)]

theorem spread_update (h : AllocStat) (n : Nat) (place : Option Nat) :
    { h with map := Function.update h.map n place }.spread =
      { h.spread with map := Function.update h.spread.map (2 * n) place } := by
  refine congrArg (AllocStat.mk · _ _) ?_
  funext m
  by_cases here : m = 2 * n
  · subst here
    rw [Function.update_self]
    exact (spread_map _ n).trans (Function.update_self ..)
  · rw [Function.update_of_ne here]
    change (if m % 2 = 0 then Function.update h.map n place (m / 2) else none) =
      if m % 2 = 0 then h.map (m / 2) else none
    split
    · rename_i even
      rw [Function.update_of_ne]
      omega
    · rfl

theorem takeOut_spread (count number : Nat) (vars : List Var) :
    takeOut count (2 * number) (vars.map Var.spread) =
      ((takeOut count number vars).1.map Var.spread,
        (takeOut count number vars).2.map Var.spread) := by
  have same : ∀ v : Var, decide (v.spread.number = 2 * number) = decide (v.number = number) := by
    intro v
    exact decide_eq_decide.mpr (v.spread_number_eq number)
  have general : ((vars.map Var.spread).find? (·.number = 2 * number),
      (vars.map Var.spread).eraseP (·.number = 2 * number)) =
        ((vars.find? (·.number = number)).map Var.spread,
          (vars.eraseP (·.number = number)).map Var.spread) := by
    rw [List.find?_map, List.eraseP_map]
    congr 2
    · exact congrArg (List.find? · vars) (funext same)
    · exact congrArg (List.eraseP · vars) (funext same)
  match count, vars with
  | 1, vars => simp [takeOut]
  | 2, [first, second] =>
      change (if first.spread.number = 2 * number then _ else _) = (Option.map _ (Prod.fst
        (if first.number = number then _ else _)), List.map _ (Prod.snd
          (if first.number = number then _ else _)))
      by_cases here : first.number = number
      · rw [if_pos here, if_pos ((first.spread_number_eq number).mpr here)]
        rfl
      · rw [if_neg here, if_neg (mt (first.spread_number_eq number).mp here)]
        rfl
  | 0, _ => exact general
  | 2, [] => exact general
  | 2, [_] => exact general
  | 2, _ :: _ :: _ :: _ => exact general
  | _ + 3, _ => exact general

theorem rmap_spread (rmap : Nat → List Var) (r : Nat) (vars : List Var) :
    (fun s => (Function.update rmap r vars s).map Var.spread) =
      Function.update (fun s => (rmap s).map Var.spread) r (vars.map Var.spread) := by
  funext s
  by_cases here : s = r
  · rw [here, Function.update_self, Function.update_self]
  · rw [Function.update_of_ne here, Function.update_of_ne here]

theorem removeRMap_spread (h : AllocStat) (v : Var) (r : Nat) :
    (h.removeRMap v r).spread = h.spread.removeRMap v.spread r := by
  have taken := takeOut_spread (h.refcount r) v.number (h.rmap r)
  rw [removeRMap, removeRMap]
  change _ = AllocStat.mk _ (Function.update _ r
    (takeOut (h.refcount r) (2 * v.number) ((h.rmap r).map Var.spread)).2) (countDown _
      ((takeOut (h.refcount r) (2 * v.number) ((h.rmap r).map Var.spread)).1.map Var.type) r)
  rw [taken, Option.map_map]
  exact congrArg (AllocStat.mk _ · _) (rmap_spread ..)

theorem appendRMap_spread (h : AllocStat) (v : Var) (r : Nat) :
    (h.appendRMap v r).spread = h.spread.appendRMap v.spread r := by
  refine congrArg (AllocStat.mk _ · _) ((rmap_spread ..).trans ?_)
  refine congrArg (Function.update _ r) ?_
  change _ = if h.refcount r = 0 then [v.spread] else (h.rmap r).map Var.spread ++ [v.spread]
  split
  · rfl
  · exact List.map_append

theorem insert_spread (h : AllocStat) (v : Var) (r : Nat) :
    (h.insert v r).spread = h.spread.insert v.spread r := by
  rw [insert, insert, appendRMap_spread, spread_update, Var.spread_number, spread_map]
  cases h.map v.number with
  | none => rfl
  | some old => rw [removeRMap_spread]

theorem erase_spread (h : AllocStat) (v : Var) :
    (h.erase v).map spread = h.spread.erase v.spread := by
  rw [erase, erase, Var.spread_number, spread_map, Option.map_map]
  refine congrArg (Option.map · (h.map v.number)) ?_
  funext r
  exact (removeRMap_spread ..).trans (congrArg (removeRMap · v.spread r) (spread_update ..))

theorem changeMappedReg_spread (h : AllocStat) (v : Var) (r : Nat) :
    (h.changeMappedReg v r).map spread = h.spread.changeMappedReg v.spread r := by
  rw [changeMappedReg, changeMappedReg, Var.spread_number, spread_map, Option.map_map]
  refine congrArg (Option.map · (h.map v.number)) ?_
  funext old
  refine (appendRMap_spread ..).trans (congrArg (appendRMap · v.spread r) ?_)
  exact (removeRMap_spread ..).trans (congrArg (removeRMap · v.spread old) (spread_update ..))

theorem exists_spread {vars : List Var} {m : Nat} :
    (∃ v ∈ vars.map Var.spread, v.number = m) ↔ m % 2 = 0 ∧ ∃ v ∈ vars, v.number = m / 2 := by
  constructor
  · intro ⟨w, member, number⟩
    obtain ⟨v, origin, rfl⟩ := List.mem_map.mp member
    rw [Var.spread_number] at number
    exact ⟨by omega, v, origin, by omega⟩
  · intro ⟨even, v, member, number⟩
    refine ⟨v.spread, List.mem_map_of_mem member, ?_⟩
    rw [Var.spread_number]
    omega

theorem changeReg_spread (h : AllocStat) (r1 r2 : Nat) :
    (h.changeReg r1 r2).map spread = h.spread.changeReg r1 r2 := by
  have places : (fun s => (Function.update (Function.update h.rmap r2 (h.rmap r1)) r1 [] s).map
      Var.spread) = Function.update (Function.update h.spread.rmap r2 (h.spread.rmap r1)) r1 [] :=
    (rmap_spread ..).trans (congrArg (Function.update · r1 []) (rmap_spread ..))
  rw [changeReg, changeReg, ← places]
  generalize Function.update (Function.update h.rmap r2 (h.rmap r1)) r1 [] = rmap
  rw [List.head?_map, Option.map_map, Option.map_map]
  refine congrArg (Option.map · _) ?_
  funext t
  refine congrArg (AllocStat.mk · _ _) ?_
  funext m
  change (if m % 2 = 0 then if ∃ v ∈ rmap r2, v.number = m / 2 then some r2 else h.map (m / 2)
    else none) = if ∃ v ∈ (rmap r2).map Var.spread, v.number = m then some r2 else h.spread.map m
  by_cases even : m % 2 = 0
  · rw [if_pos even]
    refine (if_congr (exists_spread.trans (and_iff_right even)) rfl ?_).symm
    exact if_pos even
  · rw [if_neg even, if_neg fun moved => even (exists_spread.mp moved).1]
    exact (if_neg even).symm

theorem seconds_spread (h : AllocStat) (r : Nat) : h.spread.seconds r = h.seconds r := by
  cases r with
  | zero => rfl
  | succ r => exact List.countP_map

/-! What holds of the states with numbers of any kind. -/

def Sound (numVars : Nat) (h : AllocStat) : Prop :=
  Consistent (2 * numVars) (fun _ => false) h.spread

/-- The place may be given to the variable: what else is there, or behind it for a double, is
of the same width and in the same place. -/
structure Free (numVars : Nat) (h : AllocStat) (v : Var) (r : Nat) : Prop where
  numbered : v.number < numVars
  placed : 0 < r ∧ r + v.type.width ≤ regNumber + numVars
  shared : ∀ s, ∀ w ∈ h.rmap s, w.number ≠ v.number →
    Apart r v.type.width s w.type.width ∨ r = s ∧ v.type.width = w.type.width

variable {numVars : Nat} {h' : AllocStat} {v w : Var} {r s : Nat}

theorem Free.spread (free : Free numVars h v r) :
    Fits (2 * numVars) (fun _ => false) h.spread v.spread r where
  placed := by
    have placed := free.placed
    rw [Var.spread_type]
    omega
  numbered := by
    have numbered := free.numbered
    have width := VarType.width_le v.type
    rw [Var.spread_number, Var.spread_type]
    omega
  apart := by
    intro s x member different
    obtain ⟨w, _, rfl⟩ := List.mem_map.mp member
    have width := VarType.width_le v.type
    have width' := VarType.width_le w.type
    simp only [Var.spread_number, Var.spread_type, Apart] at different ⊢
    omega
  shared := by
    intro s x member different
    obtain ⟨w, origin, rfl⟩ := List.mem_map.mp member
    exact free.shared s w origin fun same => different (congrArg (2 * ·) same)
  unreserved := ⟨rfl, fun _ => rfl⟩

variable {r1 r2 : Nat}

theorem Movable.spread (movable : Movable numVars h v r1 r2) :
    Movable (2 * numVars) h.spread v.spread r1 r2 where
  member := List.mem_map_of_mem movable.member
  placed := by
    have placed := movable.placed
    rw [Var.spread_type]
    omega
  free := movable.free
  freeNext := movable.freeNext

namespace Sound

theorem init : Sound numVars AllocStat.init := by
  have same : AllocStat.init.spread = AllocStat.init := by
    refine congrArg (AllocStat.mk · _ _) ?_
    funext m
    exact ite_self none
  rw [Sound, same]
  exact consistent_init

theorem insert (sound : Sound numVars h) (free : Free numVars h v r) :
    Sound numVars (h.insert v r) := by
  rw [Sound, insert_spread]
  exact Consistent.insert sound free.spread

theorem erase (sound : Sound numVars h) (erased : h.erase v = some h') : Sound numVars h' := by
  refine Consistent.erase sound (v := v.spread) ?_
  rw [← erase_spread, erased, Option.map_some]

theorem changeMappedReg (sound : Sound numVars h) (free : Free numVars h v r)
    (changed : h.changeMappedReg v r = some h') : Sound numVars h' := by
  refine Consistent.changeMappedReg sound free.spread ?_
  rw [← changeMappedReg_spread, changed, Option.map_some]

theorem changeReg (sound : Sound numVars h) (movable : Movable numVars h v r1 r2)
    (changed : h.changeReg r1 r2 = some h') : Sound numVars h' := by
  refine Consistent.changeReg sound movable.spread ?_
  rw [← changeReg_spread, changed, Option.map_some]

variable (sound : Sound numVars h)

include sound

theorem map_iff (n r : Nat) : h.map n = some r ↔ ∃ v ∈ h.rmap r, v.number = n := by
  rw [← spread_map, Consistent.map sound]
  refine exists_spread.trans ?_
  rw [Nat.mul_div_cancel_left n (by decide)]
  exact and_iff_right (Nat.mul_mod_right 2 n)

theorem distinct (r : Nat) : ((h.rmap r).map Var.number).Nodup := by
  have distinct := Consistent.distinct sound r
  have doubled : (h.spread.rmap r).map Var.number = ((h.rmap r).map Var.number).map (2 * ·) := by
    rw [spread, List.map_map, List.map_map]
    rfl
  rw [doubled] at distinct
  exact distinct.of_map _

theorem placed (member : v ∈ h.rmap r) : 0 < r :=
  (Consistent.placed sound r v.spread (List.mem_map_of_mem member)).1

theorem refcount_of_mem (member : v ∈ h.rmap r) : h.refcount r = (h.rmap r).length := by
  have counted := Consistent.refcount_of_mem sound (r := r) (List.mem_map_of_mem member)
  exact counted.trans (List.length_map _)

theorem rmap_behind (member : v ∈ h.rmap r) (double : v.type = .double) : h.rmap (r + 1) = [] :=
  List.map_eq_nil_iff.mp (Consistent.rmap_behind sound (List.mem_map_of_mem member) double)

theorem refcount (r : Nat) : h.refcount r = (h.rmap r).length + h.seconds r := by
  have counted := Consistent.refcount sound r
  rw [seconds_spread, Bool.toNat_false, Nat.add_zero] at counted
  exact counted.trans (congrArg (· + _) (List.length_map _))

theorem refcount_behind (member : v ∈ h.rmap r) (double : v.type = .double) :
    h.refcount (r + 1) = h.refcount r := by
  have pairs := Consistent.doubles_eq sound (List.mem_map_of_mem member)
  rw [sound.refcount (r + 1), sound.rmap_behind member double, List.length_nil, Nat.zero_add,
    ← seconds_spread, seconds, pairs, sound.refcount_of_mem member]
  exact (if_pos double).trans (List.length_map _)

theorem ne_of_movable (movable : Movable numVars h v r1 r2) : r2 ≠ r1 := by
  rintro rfl
  have counted := sound.refcount_of_mem movable.member
  rw [movable.free] at counted
  exact List.ne_nil_of_mem movable.member (List.eq_nil_of_length_eq_zero counted.symm)

theorem changeReg_returns (movable : Movable numVars h v r1 r2) :
    ∃ h', h.changeReg r1 r2 = some h' ∧ h'.refcount r1 = 0 ∧ h'.refcount r2 = h.refcount r1 := by
  have form := changeReg_eq sound movable.spread
  rw [← changeReg_spread] at form
  obtain ⟨h', changed, form⟩ := Option.map_eq_some_iff.mp form
  have counts := congrArg AllocStat.refcount form
  refine ⟨h', changed, ?_, ?_⟩
  · exact (congrFun counts r1).trans (if_pos rfl)
  · exact (congrFun counts r2).trans ((if_neg (sound.ne_of_movable movable)).trans (if_pos rfl))

end Sound

end AllocStat

end LaTTe.Registers
