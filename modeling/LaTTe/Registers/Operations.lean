import LaTTe.Data.Transition
import LaTTe.Registers.Consistent

namespace LaTTe.Registers.AllocStat

/-! The operations on the status keep it consistent. -/

variable {numVars : Nat} {reserved : Nat → Bool} {h h' : AllocStat} {v : Var} {r : Nat}

theorem doubles_eraseP {vars : List Var} (distinct : (vars.map Var.number).Nodup)
    (member : v ∈ vars) :
    doubles (vars.eraseP (·.number = v.number)) + (if v.type = .double then 1 else 0) =
      doubles vars := by
  induction vars with
  | nil => cases member
  | cons w vars ih =>
      rw [List.map_cons, List.nodup_cons] at distinct
      rcases List.mem_cons.mp member with rfl | member
      · simp [doubles, List.countP_cons]
      · have different : w.number ≠ v.number := by
          intro same
          exact distinct.1 (same ▸ List.mem_map_of_mem member)
        have rest := ih distinct.2 member
        rw [List.eraseP_cons_of_neg (by simpa using different)]
        simp only [doubles, List.countP_cons] at rest ⊢
        omega

/-! Taking a variable out. -/

def without (h : AllocStat) (v : Var) (r : Nat) : AllocStat :=
  { h with map := Function.update h.map v.number none }.removeRMap v r

section

variable (consistent : Consistent numVars reserved h) {w : Var} (member : w ∈ h.rmap r)
  (same : w.number = v.number)

include consistent member same

theorem removeRMap_eq (map : Nat → Option Nat) :
    { h with map := map }.removeRMap v r =
      { map := map
        rmap := Function.update h.rmap r ((h.rmap r).eraseP (·.number = v.number))
        refcount := countDown h.refcount (some w.type) r } := by
  have taken := takeOut_eq (consistent.distinct r) member
  rw [same] at taken
  rw [removeRMap]
  dsimp only
  rw [consistent.refcount_of_mem member, taken]
  rfl

theorem mem_without {x : Var} {s : Nat} :
    x ∈ (h.without v r).rmap s ↔ x ∈ h.rmap s ∧ x.number ≠ v.number := by
  rw [without, removeRMap_eq consistent member same]
  dsimp only
  by_cases here : s = r
  · subst here
    rw [Function.update_self, mem_eraseP (consistent.distinct s)]
  · rw [Function.update_of_ne here]
    refine ⟨fun other => ⟨other, fun equal => here ?_⟩, And.left⟩
    exact (consistent.unique other member (equal.trans same.symm)).1

theorem Consistent.without :
    Consistent numVars reserved (h.without v r) := by
  have subset : ∀ {x s}, x ∈ (h.without v r).rmap s → x ∈ h.rmap s :=
    fun {x s} other => ((mem_without consistent member same).mp other).1
  refine ⟨?_, ?_, ?_, ?_, ?_, ?_, ?_, ?_⟩
  · intro s
    have counted := consistent.refcount s
    have lengths := List.length_eraseP_of_mem (p := fun x => decide (x.number = v.number)) member
      (by simpa using same)
    have pairs := doubles_eraseP (consistent.distinct r) member
    have positive := List.length_pos_of_mem member
    have next := consistent.refcount (r + 1)
    rw [same] at pairs
    rw [AllocStat.without, removeRMap_eq consistent member same]
    dsimp only
    rw [countDown_apply, seconds_update]
    by_cases here : s = r
    · subst here
      have away : s ≠ s + 1 := by omega
      rw [Function.update_self, if_pos rfl, if_neg away, if_neg (by omega), lengths, counted]
      change _ = _ + h.seconds s + _
      omega
    · rw [Function.update_of_ne here, if_neg here]
      by_cases behind : s = r + 1
      · subst behind
        rw [if_pos rfl]
        have before : h.seconds (r + 1) = doubles (h.rmap r) := rfl
        rw [before] at counted
        by_cases double : w.type = .double
        · rw [if_pos double] at pairs
          rw [if_pos ⟨congrArg some double, rfl⟩, counted]
          omega
        · rw [if_neg double] at pairs
          rw [if_neg (by simp [double]), counted]
          omega
      · rw [if_neg behind, if_neg (by omega), counted]
        rfl
  · intro n s
    have mapped : (h.without v r).map n = if n = v.number then none else h.map n := by
      rw [AllocStat.without, removeRMap_eq consistent member same]
      exact Function.update_apply _ _ _ _
    rw [mapped]
    by_cases taken : n = v.number
    · rw [if_pos taken]
      refine ⟨nofun, ?_⟩
      rintro ⟨x, other, number⟩
      exact absurd (number.trans taken) ((mem_without consistent member same).mp other).2
    · rw [if_neg taken, consistent.map]
      refine exists_congr fun x => ?_
      rw [mem_without consistent member same]
      constructor
      · rintro ⟨other, number⟩
        exact ⟨⟨other, number.symm ▸ taken⟩, number⟩
      · rintro ⟨⟨other, _⟩, number⟩
        exact ⟨other, number⟩
  · intro s
    rw [AllocStat.without, removeRMap_eq consistent member same]
    dsimp only
    by_cases here : s = r
    · subst here
      rw [Function.update_self]
      exact (consistent.distinct s).sublist (List.eraseP_sublist.map _)
    · rw [Function.update_of_ne here]
      exact consistent.distinct s
  · exact fun s x other => consistent.placed s x (subset other)
  · exact fun s x other => consistent.numbered s x (subset other)
  · exact fun s x other t y more => consistent.apart s x (subset other) t y (subset more)
  · exact fun s x other t y more => consistent.shared s x (subset other) t y (subset more)
  · exact fun s x other => consistent.unreserved s x (subset other)

/-! Putting a variable in. -/

end

def withVar (h : AllocStat) (v : Var) (r : Nat) : AllocStat :=
  { h with map := Function.update h.map v.number (some r) }.appendRMap v r

section

variable (consistent : Consistent numVars reserved h)

include consistent

theorem withVar_eq (v : Var) (r : Nat) :
    h.withVar v r =
      { map := Function.update h.map v.number (some r)
        rmap := Function.update h.rmap r (h.rmap r ++ [v])
        refcount := countUp h.refcount v.type r } := by
  have appended : (if h.refcount r = 0 then [v] else h.rmap r ++ [v]) = h.rmap r ++ [v] := by
    split
    · rename_i free
      rw [consistent.rmap_eq_nil free]
      rfl
    · rfl
  rw [withVar, appendRMap]
  dsimp only
  rw [appended]

theorem mem_withVar {x : Var} {s : Nat} :
    x ∈ (h.withVar v r).rmap s ↔ x ∈ h.rmap s ∨ s = r ∧ x = v := by
  rw [withVar_eq consistent]
  dsimp only
  by_cases here : s = r
  · subst here
    simp
  · simp [here]

theorem Consistent.withVar (fits : Fits numVars reserved h v r) (absent : h.map v.number = none) :
    Consistent numVars reserved (h.withVar v r) := by
  have elsewhere := consistent.map_eq_none.mp absent
  have cases : ∀ {x s}, x ∈ (h.withVar v r).rmap s → x ∈ h.rmap s ∨ s = r ∧ x = v :=
    fun {x s} => (mem_withVar consistent).mp
  refine ⟨?_, ?_, ?_, ?_, ?_, ?_, ?_, ?_⟩
  · intro s
    have counted := consistent.refcount s
    rw [withVar_eq consistent]
    dsimp only
    rw [countUp_apply, seconds_update, doubles_append]
    by_cases here : s = r
    · subst here
      have away : s ≠ s + 1 := by omega
      rw [Function.update_self, if_pos rfl, if_neg away, if_neg (by omega), counted,
        List.length_append, List.length_singleton]
      change _ = _ + h.seconds s + _
      omega
    · rw [Function.update_of_ne here, if_neg here]
      by_cases behind : s = r + 1
      · subst behind
        have before : h.seconds (r + 1) = doubles (h.rmap r) := rfl
        rw [if_pos rfl, counted, before]
        by_cases double : v.type = .double
        · rw [if_pos ⟨double, rfl⟩, if_pos double]
          omega
        · rw [if_neg (by simp [double]), if_neg double]
          omega
      · rw [if_neg behind, if_neg (by omega), counted]
        rfl
  · intro n s
    have mapped : (h.withVar v r).map n = if n = v.number then some r else h.map n := by
      rw [withVar_eq consistent]
      exact Function.update_apply _ _ _ _
    rw [mapped]
    by_cases given : n = v.number
    · rw [if_pos given, Option.some_inj]
      constructor
      · rintro rfl
        exact ⟨v, (mem_withVar consistent).mpr (.inr ⟨rfl, rfl⟩), given.symm⟩
      · rintro ⟨x, member, number⟩
        rcases cases member with old | ⟨rfl, rfl⟩
        · exact absurd (number.trans given) (elsewhere s x old)
        · rfl
    · rw [if_neg given, consistent.map]
      constructor
      · rintro ⟨x, member, number⟩
        exact ⟨x, (mem_withVar consistent).mpr (.inl member), number⟩
      · rintro ⟨x, member, number⟩
        rcases cases member with old | ⟨rfl, rfl⟩
        · exact ⟨x, old, number⟩
        · exact absurd number.symm given
  · intro s
    rw [withVar_eq consistent]
    dsimp only
    by_cases here : s = r
    · subst here
      rw [Function.update_self, List.map_append, List.nodup_append]
      refine ⟨consistent.distinct s, List.nodup_singleton _, ?_⟩
      intro n old m new same
      obtain ⟨x, member, rfl⟩ := List.mem_map.mp old
      obtain rfl := List.mem_singleton.mp new
      exact elsewhere s x member same
    · rw [Function.update_of_ne here]
      exact consistent.distinct s
  · intro s x member
    rcases cases member with old | ⟨rfl, rfl⟩
    · exact consistent.placed s x old
    · exact fits.placed
  · intro s x member
    rcases cases member with old | ⟨rfl, rfl⟩
    · exact consistent.numbered s x old
    · exact fits.numbered
  · intro s x member t y other different
    rcases cases member with old | ⟨rfl, rfl⟩
    · rcases cases other with old' | ⟨rfl, rfl⟩
      · exact consistent.apart s x old t y old' different
      · exact (fits.apart s x old different).symm
    · rcases cases other with old' | ⟨rfl, rfl⟩
      · exact fits.apart t y old' different.symm
      · exact absurd rfl different
  · intro s x member t y other
    rcases cases member with old | ⟨rfl, rfl⟩
    · rcases cases other with old' | ⟨rfl, rfl⟩
      · exact consistent.shared s x old t y old'
      · rcases fits.shared s x old (elsewhere s x old) with apart | ⟨same, width⟩
        · exact .inl apart.symm
        · exact .inr ⟨same.symm, width.symm⟩
    · rcases cases other with old' | ⟨rfl, rfl⟩
      · exact fits.shared t y old' (elsewhere t y old')
      · exact .inr ⟨rfl, rfl⟩
  · intro s x member
    rcases cases member with old | ⟨rfl, rfl⟩
    · exact consistent.unreserved s x old
    · exact fits.unreserved

theorem Fits.without
    (fits : Fits numVars reserved h v r) {w : Var} {old : Nat} (member : w ∈ h.rmap old)
    (same : w.number = v.number) : Fits numVars reserved (h.without v old) v r where
  placed := fits.placed
  numbered := fits.numbered
  apart s x other := fits.apart s x ((mem_without consistent member same).mp other).1
  shared s x other := fits.shared s x ((mem_without consistent member same).mp other).1
  unreserved := fits.unreserved

theorem map_without {w : Var} (member : w ∈ h.rmap r) (same : w.number = v.number) :
    (h.without v r).map v.number = none := by
  rw [without, removeRMap_eq consistent member same]
  exact Function.update_self _ _ _

theorem Consistent.moved
    (fits : Fits numVars reserved h v r) {w : Var} {old : Nat} (member : w ∈ h.rmap old)
    (same : w.number = v.number) :
    Consistent numVars reserved ((h.without v old).withVar v r) :=
  (consistent.without member same).withVar (fits.without consistent member same)
    (map_without consistent member same)

theorem withVar_without {w : Var} {old : Nat}
    (member : w ∈ h.rmap old) (same : w.number = v.number) :
    ({ h with map := Function.update h.map v.number (some r) }.removeRMap v old).appendRMap v r =
      (h.without v old).withVar v r := by
  rw [without, withVar, removeRMap_eq consistent member same,
    removeRMap_eq consistent member same]
  dsimp only
  rw [Function.update_idem]

end

theorem erase_eq (h : AllocStat) (v : Var) : h.erase v = (h.map v.number).map (h.without v) :=
  rfl

section

variable (consistent : Consistent numVars reserved h)

include consistent

theorem changeMappedReg_eq (v : Var) (r : Nat) :
    h.changeMappedReg v r = (h.map v.number).map fun old => (h.without v old).withVar v r := by
  rw [changeMappedReg]
  cases found : h.map v.number with
  | none => rfl
  | some old =>
      obtain ⟨w, member, same⟩ := (consistent.map _ _).mp found
      exact congrArg some (withVar_without consistent member same)

theorem insert_eq (v : Var) (r : Nat) :
    h.insert v r = match h.map v.number with
      | some old => (h.without v old).withVar v r
      | none => h.withVar v r := by
  rw [insert]
  cases found : h.map v.number with
  | none => rfl
  | some old =>
      obtain ⟨w, member, same⟩ := (consistent.map _ _).mp found
      dsimp only
      rw [← withVar_without consistent member same]
      have removed : h.removeRMap v old = _ := removeRMap_eq consistent member same h.map
      rw [removed, removeRMap_eq consistent member same]

theorem mem_insert {x : Var} {s : Nat} :
    x ∈ (h.insert v r).rmap s ↔ x ∈ h.rmap s ∧ x.number ≠ v.number ∨ s = r ∧ x = v := by
  rw [insert_eq consistent]
  cases found : h.map v.number with
  | none =>
      have absent := consistent.map_eq_none.mp found s x
      dsimp only
      rw [mem_withVar consistent]
      exact or_congr_left ⟨fun member => ⟨member, absent member⟩, And.left⟩
  | some old =>
      obtain ⟨w, member, same⟩ := (consistent.map _ _).mp found
      dsimp only
      rw [mem_withVar (consistent.without member same), mem_without consistent member same]

theorem Consistent.insert
    (fits : Fits numVars reserved h v r) : Consistent numVars reserved (h.insert v r) := by
  rw [insert_eq consistent]
  cases found : h.map v.number with
  | none => exact consistent.withVar fits found
  | some old =>
      obtain ⟨w, member, same⟩ := (consistent.map _ _).mp found
      exact consistent.moved fits member same

theorem Consistent.erase (erased : h.erase v = some h') : Consistent numVars reserved h' := by
  obtain ⟨r, found, rfl⟩ := Option.map_eq_some_iff.mp erased
  obtain ⟨w, member, same⟩ := (consistent.map _ _).mp found
  exact consistent.without member same

theorem Consistent.changeMappedReg
    (fits : Fits numVars reserved h v r) (changed : h.changeMappedReg v r = some h') :
    Consistent numVars reserved h' := by
  rw [changeMappedReg_eq consistent] at changed
  obtain ⟨old, found, rfl⟩ := Option.map_eq_some_iff.mp changed
  obtain ⟨w, member, same⟩ := (consistent.map _ _).mp found
  exact consistent.moved fits member same

/-! Moving all variables of a place. -/

end

structure Movable (numVars : Nat) (h : AllocStat) (v : Var) (r1 r2 : Nat) : Prop where
  member : v ∈ h.rmap r1
  placed : 0 < r2 ∧ r2 + v.type.width ≤ regNumber + numVars
  free : h.refcount r2 = 0
  freeNext : v.type = .double → h.refcount (r2 + 1) = 0

section ChangeReg

variable {r1 r2 : Nat} (consistent : Consistent numVars reserved h)
  (movable : Movable numVars h v r1 r2)

include consistent movable

theorem Movable.different : r2 ≠ r1 := by
  rintro rfl
  have occupied := consistent.refcount_of_mem movable.member
  have positive := List.length_pos_of_mem movable.member
  have := movable.free
  omega

/-- A variable that stays is apart from the new place. -/
theorem Movable.apart {s : Nat} (other : s ≠ r1) {x : Var} (member : x ∈ h.rmap s) :
    Apart s x.type.width r2 v.type.width := by
  have here := consistent.refcount_of_mem member
  have counted := consistent.refcount r2
  have counted' := consistent.refcount (r2 + 1)
  have freeNext := movable.freeNext
  have free := movable.free
  have occupiedHere := List.length_pos_of_mem member
  unfold Apart
  by_contra overlap
  rw [not_or] at overlap
  by_cases same : s = r2
  · subst same
    omega
  · by_cases behind : s = r2 + 1
    · subst behind
      have wide : v.type.width = 2 := by
        have := v.type.width_pos
        unfold VarType.width at overlap ⊢
        split <;> split at overlap <;> omega
      have := freeNext ((VarType.double_iff _).mpr wide)
      omega
    · have front : r2 = s + 1 ∧ x.type = .double := by
        unfold VarType.width at overlap
        split at overlap <;> split at overlap <;> simp_all <;> omega
      obtain ⟨rfl, double⟩ := front
      have : h.seconds (s + 1) = (h.rmap s).length := by
        rw [seconds, consistent.doubles_eq member, if_pos double]
      omega

theorem changeReg_eq :
    h.changeReg r1 r2 = some
      { map := fun n => if ∃ v ∈ h.rmap r1, v.number = n then some r2 else h.map n
        rmap := Function.update (Function.update h.rmap r2 (h.rmap r1)) r1 []
        refcount := fun s =>
          if s = r1 then 0
          else if s = r2 then h.refcount r1
          else if v.type = .double then
            if s = r1 + 1 then 0 else if s = r2 + 1 then h.refcount (r1 + 1) else h.refcount s
          else h.refcount s } := by
  have occupied := consistent.refcount_of_mem movable.member
  have positive := List.length_pos_of_mem movable.member
  have different := movable.different consistent
  rw [changeReg, Function.update_of_ne different, Function.update_self]
  cases vars : h.rmap r1 with
  | nil =>
      rw [vars] at positive
      exact absurd positive (Nat.lt_irrefl 0)
  | cons t rest =>
      have head : t ∈ h.rmap r1 := vars ▸ List.mem_cons_self
      have width := consistent.width_eq head movable.member
      have sort : t.type = .double ↔ v.type = .double := by
        rw [VarType.double_iff, VarType.double_iff, width]
      rw [List.head?_cons, Option.map_some, Option.some_inj]
      refine congrArg (AllocStat.mk _ _) ?_
      funext s
      by_cases double : v.type = .double
      · have next : h.refcount (r1 + 1) ≠ 0 := by
          rw [consistent.refcount]
          have : h.seconds (r1 + 1) = (h.rmap r1).length := by
            rw [seconds, consistent.doubles_eq movable.member, if_pos double]
          omega
        have apart : r1 + 1 ≠ r2 := by
          intro same
          rw [same] at next
          exact next movable.free
        have apart' : r2 + 1 ≠ r1 := by
          rintro rfl
          have := movable.freeNext double
          omega
        rw [if_pos (sort.mpr double), Function.update_apply, Function.update_apply,
          Function.update_apply, Function.update_apply, Function.update_apply]
        simp only [double, if_true]
        by_cases first : s = r1 + 1
        · subst first
          simp [apart]
        · by_cases second : s = r2 + 1
          · subst second
            simp [apart', apart]
          · simp [first, second, Function.update_apply]
      · rw [if_neg (fun double' => double (sort.mp double')), Function.update_apply,
          Function.update_apply]
        simp [double]

variable (changed : h.changeReg r1 r2 = some h')

include changed

theorem mem_changeReg {x : Var} {s : Nat} :
    x ∈ h'.rmap s ↔ s ≠ r1 ∧ x ∈ h.rmap s ∨ s = r2 ∧ x ∈ h.rmap r1 := by
  rw [changeReg_eq consistent movable] at changed
  cases changed
  have empty := consistent.rmap_eq_nil movable.free
  have different := movable.different consistent
  dsimp only
  by_cases old : s = r1
  · subst old
    simp [different.symm]
  · rw [Function.update_of_ne old]
    by_cases new : s = r2
    · subst new
      simp [empty]
    · rw [Function.update_of_ne new]
      simp [old, new]

theorem refcount_changeReg (s : Nat) :
    h'.refcount s = (h'.rmap s).length + h'.seconds s + (reserved s).toNat := by
  have occupied := consistent.refcount_of_mem movable.member
  have positive := List.length_pos_of_mem movable.member
  have empty := consistent.rmap_eq_nil movable.free
  have different := movable.different consistent
  rw [changeReg_eq consistent movable, Option.some_inj] at changed
  have counted := consistent.refcount s
  have counted1 := consistent.refcount r1
  have counted2 := consistent.refcount r2
  have pairs := consistent.doubles_eq movable.member
  have free := movable.free
  have alone := (consistent.unreserved r1 v movable.member).1
  rw [← changed]
  dsimp only
  rw [seconds_update, seconds_update]
  change _ = _ + (if s = r1 + 1 then 0 else if s = r2 + 1 then doubles (h.rmap r1)
    else h.seconds s) + _
  rw [alone, Bool.toNat_false] at counted1
  by_cases old : s = r1
  · subst old
    rw [if_pos rfl, Function.update_self, if_neg (by omega), List.length_nil, alone,
      Bool.toNat_false]
    split
    · rename_i behind
      by_cases double : v.type = .double
      · have := movable.freeNext double
        rw [← behind] at this
        omega
      · rw [pairs, if_neg double]
    · omega
  · rw [if_neg old, Function.update_of_ne old]
    by_cases new : s = r2
    · subst new
      rw [if_pos rfl, Function.update_self, if_neg (show s ≠ s + 1 by omega)]
      split <;> omega
    · rw [if_neg new, Function.update_of_ne new]
      by_cases double : v.type = .double
      · rw [if_pos double] at pairs
        have next := movable.freeNext double
        have counted3 := consistent.refcount (r1 + 1)
        have counted4 := consistent.refcount (r2 + 1)
        have seconds1 : h.seconds (r1 + 1) = doubles (h.rmap r1) := rfl
        have alone' := (consistent.unreserved r1 v movable.member).2 double
        have empty' : (h.rmap (r1 + 1)).length = 0 := by
          rw [List.length_eq_zero_iff, consistent.rmap_behind movable.member double]
        rw [alone', Bool.toNat_false] at counted3
        rw [if_pos double, pairs]
        by_cases first : s = r1 + 1
        · subst first
          rw [if_pos rfl, if_pos rfl, empty', alone']
          rfl
        · rw [if_neg first, if_neg first]
          by_cases second : s = r2 + 1
          · subst second
            rw [if_pos rfl, if_pos rfl]
            omega
          · rw [if_neg second, if_neg second, counted]
      · rw [if_neg double] at pairs
        have seconds1 : h.seconds (r1 + 1) = doubles (h.rmap r1) := rfl
        have seconds2 : h.seconds (r2 + 1) = doubles (h.rmap r2) := rfl
        have none : doubles (h.rmap r2) = 0 := by rw [empty]; rfl
        rw [if_neg double, pairs, counted]
        by_cases first : s = r1 + 1
        · subst first
          rw [if_pos rfl]
          omega
        · rw [if_neg first]
          by_cases second : s = r2 + 1
          · subst second
            rw [if_pos rfl]
            omega
          · rw [if_neg second]

theorem map_changeReg (n s : Nat) :
    h'.map n = some s ↔ ∃ x ∈ h'.rmap s, x.number = n := by
  have members := fun x => mem_changeReg consistent movable changed (x := x) (s := s)
  have map : h'.map n = if ∃ v ∈ h.rmap r1, v.number = n then some r2 else h.map n := by
    rw [changeReg_eq consistent movable, Option.some_inj] at changed
    rw [← changed]
  simp only [map, members]
  split
  · rename_i moved
    obtain ⟨w, old, number⟩ := moved
    rw [Option.some_inj]
    constructor
    · rintro rfl
      exact ⟨w, .inr ⟨rfl, old⟩, number⟩
    · rintro ⟨x, ⟨notOld, here⟩ | ⟨rfl, _⟩, number'⟩
      · exact absurd (consistent.unique here old (number'.trans number.symm)).1 notOld
      · rfl
  · rename_i stays
    rw [consistent.map]
    refine exists_congr fun x => and_congr_left fun number => ?_
    constructor
    · intro here
      refine .inl ⟨?_, here⟩
      rintro rfl
      exact stays ⟨x, here, number⟩
    · rintro (⟨_, here⟩ | ⟨_, here⟩)
      · exact here
      · exact absurd ⟨x, here, number⟩ stays

theorem Consistent.changeReg : Consistent numVars reserved h' := by
  have members := fun {x s} => mem_changeReg consistent movable changed (x := x) (s := s)
  have widths : ∀ x ∈ h.rmap r1, x.type.width = v.type.width :=
    fun x member => consistent.width_eq member movable.member
  have form := changed
  rw [changeReg_eq consistent movable, Option.some_inj] at form
  refine ⟨refcount_changeReg consistent movable changed,
    map_changeReg consistent movable changed, ?_, ?_, ?_, ?_, ?_, ?_⟩
  · intro s
    rw [← form]
    dsimp only
    by_cases old : s = r1
    · subst old
      rw [Function.update_self]
      exact List.nodup_nil
    · rw [Function.update_of_ne old]
      by_cases new : s = r2
      · subst new
        rw [Function.update_self]
        exact consistent.distinct r1
      · rw [Function.update_of_ne new]
        exact consistent.distinct s
  · intro s x member
    rcases members.mp member with ⟨_, old⟩ | ⟨rfl, old⟩
    · exact consistent.placed s x old
    · rw [widths x old]
      exact movable.placed
  · intro s x member
    rcases members.mp member with ⟨_, old⟩ | ⟨rfl, old⟩
    · exact consistent.numbered s x old
    · exact consistent.numbered r1 x old
  · intro s x member t y other distinct
    rcases members.mp member with ⟨_, old⟩ | ⟨rfl, old⟩ <;>
      rcases members.mp other with ⟨_, old'⟩ | ⟨rfl, old'⟩ <;>
      exact consistent.apart _ x old _ y old' distinct
  · intro s x member t y other
    rcases members.mp member with ⟨notOld, old⟩ | ⟨rfl, old⟩
    · rcases members.mp other with ⟨_, old'⟩ | ⟨rfl, old'⟩
      · exact consistent.shared s x old t y old'
      · rw [widths y old']
        exact .inl (movable.apart consistent notOld old)
    · rcases members.mp other with ⟨notOld, old'⟩ | ⟨rfl, old'⟩
      · rw [widths x old]
        exact .inl (movable.apart consistent notOld old').symm
      · exact .inr ⟨rfl, consistent.width_eq old old'⟩
  · intro s x member
    rcases members.mp member with ⟨_, old⟩ | ⟨rfl, old⟩
    · exact consistent.unreserved s x old
    · have counted := consistent.refcount s
      have counted' := consistent.refcount (s + 1)
      have free := movable.free
      refine ⟨?_, fun double => ?_⟩
      · cases isReserved : reserved s with
        | false => rfl
        | true =>
            rw [isReserved, Bool.toNat_true] at counted
            omega
      · have double : v.type = .double := by
          rwa [VarType.double_iff, ← widths x old, ← VarType.double_iff]
        have freeNext := movable.freeNext double
        cases isReserved : reserved (s + 1) with
        | false => rfl
        | true =>
            rw [isReserved, Bool.toNat_true] at counted'
            omega

end ChangeReg

end LaTTe.Registers.AllocStat
