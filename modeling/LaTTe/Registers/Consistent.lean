import LaTTe.Registers.AllocStat
import Mathlib.Data.List.Perm.Basic

namespace LaTTe.Registers

def Apart (first width other otherWidth : Nat) : Prop :=
  first + width ≤ other ∨ other + otherWidth ≤ first

theorem Apart.symm {first width other otherWidth : Nat}
    (apart : Apart first width other otherWidth) : Apart other otherWidth first width :=
  Or.symm apart

namespace AllocStat

def doubles (vars : List Var) : Nat := vars.countP (·.type = .double)

/-- How many variables have their second place at `r`. -/
def seconds (h : AllocStat) : Nat → Nat
  | 0 => 0
  | r + 1 => doubles (h.rmap r)

/-- What the operations keep.  The registers of `reserved` have a count of their own. -/
structure Consistent (numVars : Nat) (reserved : Nat → Bool) (h : AllocStat) : Prop where
  refcount : ∀ r, h.refcount r = (h.rmap r).length + h.seconds r + (reserved r).toNat
  map : ∀ n r, h.map n = some r ↔ ∃ v ∈ h.rmap r, v.number = n
  distinct : ∀ r, ((h.rmap r).map Var.number).Nodup
  placed : ∀ r, ∀ v ∈ h.rmap r, 0 < r ∧ r + v.type.width ≤ regNumber + numVars
  numbered : ∀ r, ∀ v ∈ h.rmap r, v.number + v.type.width ≤ numVars
  apart : ∀ r, ∀ v ∈ h.rmap r, ∀ s, ∀ w ∈ h.rmap s, v.number ≠ w.number →
    Apart v.number v.type.width w.number w.type.width
  shared : ∀ r, ∀ v ∈ h.rmap r, ∀ s, ∀ w ∈ h.rmap s,
    Apart r v.type.width s w.type.width ∨ r = s ∧ v.type.width = w.type.width
  unreserved : ∀ r, ∀ v ∈ h.rmap r, reserved r = false ∧
    (v.type = .double → reserved (r + 1) = false)

/-- The variable may get the place: nothing there is of another width, and its numbers are
not in use. -/
structure Fits (numVars : Nat) (reserved : Nat → Bool) (h : AllocStat) (v : Var) (r : Nat) :
    Prop where
  placed : 0 < r ∧ r + v.type.width ≤ regNumber + numVars
  numbered : v.number + v.type.width ≤ numVars
  apart : ∀ s, ∀ w ∈ h.rmap s, w.number ≠ v.number →
    Apart v.number v.type.width w.number w.type.width
  shared : ∀ s, ∀ w ∈ h.rmap s, w.number ≠ v.number →
    Apart r v.type.width s w.type.width ∨ r = s ∧ v.type.width = w.type.width
  unreserved : reserved r = false ∧ (v.type = .double → reserved (r + 1) = false)

section

variable {numVars : Nat} {reserved : Nat → Bool} {h : AllocStat} {v : Var} {r s : Nat}

theorem consistent_init : Consistent numVars (fun _ => false) init where
  refcount r := by
    cases r with
    | zero => rfl
    | succ r => rfl
  map := by simp [init]
  distinct := by simp [init]
  placed := by simp [init]
  numbered := by simp [init]
  apart := by simp [init]
  shared := by simp [init]
  unreserved := by simp [init]

@[simp] theorem doubles_append (vars : List Var) (v : Var) :
    doubles (vars ++ [v]) = doubles vars + if v.type = .double then 1 else 0 := by
  simp [doubles, List.countP_append, List.countP_cons]

theorem seconds_update (rmap : Nat → List Var) (map : Nat → Option Nat) (refcount : Nat → Nat)
    (vars : List Var) (s : Nat) :
    seconds ⟨map, Function.update rmap r vars, refcount⟩ s =
      if s = r + 1 then doubles vars else seconds ⟨map, rmap, refcount⟩ s := by
  cases s with
  | zero => rfl
  | succ s =>
      by_cases same : s = r
      · subst same
        simp [seconds]
      · simp [seconds, same]

theorem countUp_apply (refcount : Nat → Nat) (type : VarType) (s : Nat) :
    countUp refcount type r s = refcount s + (if s = r then 1 else 0) +
      if type = .double ∧ s = r + 1 then 1 else 0 := by
  unfold countUp
  by_cases double : type = .double
  · by_cases first : s = r
    · subst first
      simp [double]
    · by_cases second : s = r + 1
      · subst second
        simp [double]
      · simp [double, first, second]
  · by_cases first : s = r
    · subst first
      simp [double]
    · simp [double, first]

theorem countDown_apply (refcount : Nat → Nat) (type : Option VarType) (s : Nat) :
    countDown refcount type r s = refcount s - (if s = r then 1 else 0) -
      if type = some .double ∧ s = r + 1 then 1 else 0 := by
  unfold countDown
  by_cases double : type = some .double
  · by_cases first : s = r
    · subst first
      simp [double]
    · by_cases second : s = r + 1
      · subst second
        simp [double]
      · simp [double, first, second]
  · by_cases first : s = r
    · subst first
      simp [double]
    · simp [double, first]

namespace Consistent

section

variable (consistent : Consistent numVars reserved h)

include consistent

theorem length_le (r : Nat) :
    (h.rmap r).length ≤ h.refcount r := by
  rw [consistent.refcount]
  omega

theorem refcount_of_mem (member : v ∈ h.rmap r) :
    h.refcount r = (h.rmap r).length := by
  have counted := consistent.refcount r
  rw [(consistent.unreserved r v member).1] at counted
  cases r with
  | zero => exact counted
  | succ r =>
      have none : doubles (h.rmap r) = 0 := by
        rw [doubles, List.countP_eq_zero]
        intro w other
        rw [decide_eq_true_eq]
        intro double
        have width := VarType.width_double double
        have positive := v.type.width_pos
        rcases consistent.shared _ v member _ w other with (apart | apart) | ⟨same, _⟩ <;> omega
      rw [seconds, none] at counted
      simpa using counted

theorem rmap_eq_nil (free : h.refcount r = 0) :
    h.rmap r = [] := by
  have := consistent.length_le r
  exact List.eq_nil_of_length_eq_zero (by omega)

theorem width_eq {w : Var} (member : v ∈ h.rmap r)
    (other : w ∈ h.rmap r) : v.type.width = w.type.width := by
  have positive := v.type.width_pos
  have positive' := w.type.width_pos
  rcases consistent.shared r v member r w other with (apart | apart) | ⟨_, same⟩
  · omega
  · omega
  · exact same

theorem doubles_eq (member : v ∈ h.rmap r) :
    doubles (h.rmap r) = if v.type = .double then (h.rmap r).length else 0 := by
  split
  · rename_i double
    rw [doubles, List.countP_eq_length]
    intro w other
    rw [decide_eq_true_eq, VarType.double_iff, ← consistent.width_eq member other,
      VarType.width_double double]
  · rename_i single
    rw [doubles, List.countP_eq_zero]
    intro w other
    rw [decide_eq_true_eq, VarType.double_iff, ← consistent.width_eq member other,
      VarType.width_single single]
    decide

theorem rmap_behind (member : v ∈ h.rmap r) (double : v.type = .double) : h.rmap (r + 1) = [] := by
  rw [List.eq_nil_iff_forall_not_mem]
  intro w other
  have width := VarType.width_double double
  have positive := w.type.width_pos
  rcases consistent.shared r v member _ w other with (apart | apart) | ⟨same, _⟩ <;> omega

theorem unique {w : Var} (member : v ∈ h.rmap r)
    (other : w ∈ h.rmap s) (same : v.number = w.number) : r = s ∧ v = w := by
  have here := (consistent.map v.number r).mpr ⟨v, member, rfl⟩
  have there := (consistent.map v.number s).mpr ⟨w, other, same.symm⟩
  obtain rfl : r = s := Option.some_inj.mp (here.symm.trans there)
  exact ⟨rfl, List.inj_on_of_nodup_map (consistent.distinct r) member other same⟩

theorem refcount_ne_zero_iff (allowed : reserved s = false) :
    h.refcount s ≠ 0 ↔ ∃ r, ∃ w ∈ h.rmap r, r ≤ s ∧ s < r + w.type.width := by
  have counted := consistent.refcount s
  rw [allowed, Bool.toNat_false] at counted
  constructor
  · intro occupied
    by_cases first : (h.rmap s).length = 0
    · cases s with
      | zero =>
          rw [seconds] at counted
          omega
      | succ r =>
          rw [seconds] at counted
          have pairs : 0 < doubles (h.rmap r) := by omega
          obtain ⟨w, member, double⟩ := List.countP_pos_iff.mp pairs
          rw [decide_eq_true_eq] at double
          exact ⟨r, w, member, Nat.le_succ r, by rw [VarType.width_double double]; omega⟩
    · obtain ⟨w, member⟩ := List.exists_mem_of_length_pos (Nat.pos_of_ne_zero first)
      exact ⟨s, w, member, Nat.le_refl s, Nat.lt_add_of_pos_right w.type.width_pos⟩
  · rintro ⟨r, w, member, low, high⟩
    have positive := List.length_pos_of_mem member
    by_cases here : s = r
    · subst here
      omega
    · have double : w.type = .double := by
        by_contra single
        rw [VarType.width_single single] at high
        omega
      obtain rfl : s = r + 1 := by
        rw [VarType.width_double double] at high
        omega
      rw [seconds, consistent.doubles_eq member, if_pos double] at counted
      omega

theorem map_eq_none {n : Nat} :
    h.map n = none ↔ ∀ r, ∀ v ∈ h.rmap r, v.number ≠ n := by
  constructor
  · intro none r v member same
    rw [(consistent.map n r).mpr ⟨v, member, same⟩] at none
    cases none
  · intro absent
    cases found : h.map n with
    | none => rfl
    | some r =>
        obtain ⟨v, member, same⟩ := (consistent.map n r).mp found
        exact absurd same (absent r v member)

end

end Consistent

theorem takeOut_eq {vars : List Var} (distinct : (vars.map Var.number).Nodup)
    (member : v ∈ vars) :
    takeOut vars.length v.number vars = (some v, vars.eraseP (·.number = v.number)) := by
  have found : vars.find? (·.number = v.number) = some v := by
    cases result : vars.find? (·.number = v.number) with
    | none => simpa using List.find?_eq_none.mp result v member
    | some w =>
        have same := List.find?_some result
        rw [decide_eq_true_eq] at same
        rw [List.inj_on_of_nodup_map distinct (List.mem_of_find?_eq_some result) member same]
  match vars, distinct, member, found with
  | [w], _, member, _ =>
      obtain rfl := List.mem_singleton.mp member
      simp [takeOut]
  | [w, x], distinct, member, _ =>
      rcases List.mem_cons.mp member with rfl | member
      · simp [takeOut]
      · obtain rfl := List.mem_singleton.mp member
        have different : w.number ≠ v.number := by
          simpa using distinct
        simp [takeOut, different]
  | _ :: _ :: _ :: _, _, _, found => exact congrArg (·, _) found

theorem mem_eraseP {vars : List Var} (distinct : (vars.map Var.number).Nodup) {n : Nat} {w : Var} :
    w ∈ vars.eraseP (·.number = n) ↔ w ∈ vars ∧ w.number ≠ n := by
  induction vars with
  | nil => simp
  | cons u vars ih =>
      rw [List.map_cons, List.nodup_cons] at distinct
      by_cases same : u.number = n
      · rw [List.eraseP_cons_of_pos (by simpa using same), List.mem_cons]
        constructor
        · intro member
          refine ⟨.inr member, fun equal => distinct.1 ?_⟩
          rw [same, ← equal]
          exact List.mem_map_of_mem member
        · rintro ⟨rfl | member, different⟩
          · exact absurd same different
          · exact member
      · rw [List.eraseP_cons_of_neg (by simpa using same), List.mem_cons, List.mem_cons,
          ih distinct.2]
        constructor
        · rintro (rfl | ⟨member, different⟩)
          · exact ⟨.inl rfl, same⟩
          · exact ⟨.inr member, different⟩
        · rintro ⟨rfl | member, different⟩
          · exact .inl rfl
          · exact .inr ⟨member, different⟩

end

end AllocStat

end LaTTe.Registers
