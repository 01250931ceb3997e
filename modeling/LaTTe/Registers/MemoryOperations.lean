import LaTTe.Registers.Represents

namespace LaTTe.Registers.InMemory.AllocStat

open LaTTe.Data
open LaTTe.Registers.AllocStat (Sound Free)

/-! The operations in memory do what those on lists do. -/

variable {numVars : Nat} {arrays : Arrays Entry} {h : AllocStat}
  {status status' : Registers.AllocStat} {v w : Var} {r : Nat}

theorem paired_eq_some {type : Option VarType}
    (same : type = some .double → h.refcount (r + 1) = h.refcount r) :
    h.paired type r = some h := by
  refine if_neg ?_
  intro ⟨double, differ⟩
  exact differ (same double).symm

theorem mem_appendRMap (status : Registers.AllocStat) (v : Var) (r : Nat) :
    v ∈ (status.appendRMap v r).rmap r := by
  simp only [Registers.AllocStat.appendRMap, Function.update_self]
  split
  · exact List.mem_singleton_self v
  · exact List.mem_append_right _ (List.mem_singleton_self v)

theorem appendRMap_becomes (represents : Represents numVars arrays h status)
    (range : InRange numVars v r) (proper : v.type ≠ .fvoid)
    (sound : Sound numVars (status.appendRMap v r)) :
    ∃ after h', h.appendRMap numVars arrays v r = some (after, h') ∧
      Becomes numVars arrays h after h' (status.appendRMap v r) := by
  have member := mem_appendRMap status v r
  have counted : status.refcount r = 0 ∨ status.refcount r = (status.rmap r).length := by
    have counted := sound.refcount_of_mem member
    have up : (status.appendRMap v r).refcount r = status.refcount r + 1 := by
      refine (Registers.AllocStat.countUp_apply ..).trans ?_
      rw [if_pos rfl, if_neg fun behind => Nat.succ_ne_self r behind.2.symm]
    rw [up] at counted
    simp only [Registers.AllocStat.appendRMap, Function.update_self] at counted
    split at counted
    · rename_i zero
      exact Or.inl zero
    · rw [List.length_append, List.length_singleton] at counted
      exact Or.inr (Nat.succ.inj counted)
  obtain ⟨after, entry, appended, replaces⟩ := appended_replaces represents v counted
  have becomes := represents.set replaces.keeps replaces.lists range.2.2 replaces.fresh
    (Registers.AllocStat.countUp h.refcount v.type r)
  refine ⟨after, ⟨h.map, Function.update h.rmap r entry,
    Registers.AllocStat.countUp h.refcount v.type r⟩, ?_, ?_⟩
  · rw [appendRMap, if_pos ⟨range, proper⟩]
    refine Option.bind_eq_some_iff.mpr ⟨(after, entry), appended, ?_⟩
    refine Option.bind_eq_some_iff.mpr ⟨_, paired_eq_some fun double => ?_, rfl⟩
    dsimp only
    rw [represents.refcount]
    exact sound.refcount_behind member (Option.some.inj double)
  · rw [represents.refcount] at becomes
    rw [represents.refcount]
    exact becomes

theorem removeRMap_becomes (sound : Sound numVars status)
    (represents : Represents numVars arrays h status) (member : w ∈ status.rmap r)
    (same : w.number = v.number) (numbered : v.number < numVars) (map : Nat → Option Nat) :
    ∃ after h', { h with map := map }.removeRMap numVars arrays v r = some (after, h') ∧
      Becomes numVars arrays { h with map := map } after h'
        ({ status with map := map }.removeRMap v r) := by
  have inside := represents.inside_of_mem member
  have counted := sound.refcount_of_mem member
  have taken := Registers.AllocStat.takeOut_eq (sound.distinct r) member
  obtain ⟨after, found, entry, removed, rfl, replaces⟩ :=
    removed_replaces (represents.withMap map) member counted
  dsimp only at removed replaces
  rw [same, ← counted] at taken
  rw [same, taken] at replaces removed
  have becomes := (represents.withMap map).set replaces.keeps replaces.lists inside replaces.fresh
    (Registers.AllocStat.countDown h.refcount (some w.type) r)
  have behind : w.type = .double → h.refcount (r + 1) = h.refcount r := by
    rw [represents.refcount]
    exact sound.refcount_behind member
  refine ⟨after, ⟨map, Function.update h.rmap r entry,
    Registers.AllocStat.countDown h.refcount (some w.type) r⟩, ?_, ?_⟩
  · rw [removeRMap, if_pos ⟨numbered, sound.placed member, inside⟩]
    refine Option.bind_eq_some_iff.mpr ⟨_, removed, ?_⟩
    refine Option.bind_eq_some_iff.mpr ⟨_, paired_eq_some fun double => ?_, rfl⟩
    change Registers.AllocStat.countDown h.refcount (some w.type) r (r + 1) =
      Registers.AllocStat.countDown h.refcount (some w.type) r r
    rw [Registers.AllocStat.countDown_apply, Registers.AllocStat.countDown_apply,
      behind (Option.some.inj double), if_neg (Nat.succ_ne_self r), if_pos ⟨double, rfl⟩,
      if_pos rfl, if_neg fun next => Nat.succ_ne_self r next.2.symm]
    rfl
  · rw [Registers.AllocStat.removeRMap]
    dsimp only
    rw [taken, ← represents.refcount]
    exact becomes

theorem Becomes.ofMap {after : Arrays Entry} {h' : AllocStat} {map : Nat → Option Nat}
    (becomes : Becomes numVars arrays { h with map := map } after h' status) :
    Becomes numVars arrays h after h' status :=
  ⟨becomes.represents, becomes.keeps, becomes.owns⟩

theorem inRange_of_free (free : Free numVars status v r) : InRange numVars v r := by
  have placed := free.placed
  have positive := v.type.width_pos
  exact ⟨free.numbered, placed.1, by unfold numOfLocations; omega⟩

theorem insert_becomes (sound : Sound numVars status)
    (represents : Represents numVars arrays h status) (free : Free numVars status v r)
    (proper : v.type ≠ .fvoid) :
    ∃ after h', h.insert numVars arrays v r = some (after, h') ∧
      Becomes numVars arrays h after h' (status.insert v r) := by
  have range := inRange_of_free free
  have final := sound.insert free
  rw [insert, if_pos ⟨range, proper⟩, represents.map]
  rw [Registers.AllocStat.insert] at final ⊢
  cases found : status.map v.number with
  | none =>
      rw [found] at final
      obtain ⟨after, h', done, becomes⟩ :=
        appendRMap_becomes (represents.withMap _) range proper final
      refine ⟨after, h', ?_, becomes.ofMap⟩
      rw [← represents.map] at done
      exact done
  | some old =>
      rw [found] at final
      obtain ⟨w, member, same⟩ := (sound.map_iff _ _).mp found
      obtain ⟨between, h1, removed, first⟩ :=
        removeRMap_becomes sound represents member same free.numbered status.map
      obtain ⟨after, h', appended, second⟩ :=
        appendRMap_becomes (first.represents.withMap _) range proper final
      refine ⟨after, h', ?_, (first.trans second.ofMap).ofMap⟩
      rw [← represents.map] at removed
      rw [← first.represents.map] at appended
      refine (if_pos (sound.placed member)).trans ?_
      exact Option.bind_eq_some_iff.mpr ⟨(between, h1), removed, appended⟩

theorem erase_becomes (sound : Sound numVars status)
    (represents : Represents numVars arrays h status) (numbered : v.number < numVars)
    (erased : status.erase v = some status') :
    ∃ after h', h.erase numVars arrays v = some (after, h') ∧
      Becomes numVars arrays h after h' status' := by
  obtain ⟨r, found, rfl⟩ := Option.map_eq_some_iff.mp erased
  obtain ⟨w, member, same⟩ := (sound.map_iff _ _).mp found
  obtain ⟨after, h', removed, becomes⟩ := removeRMap_becomes sound represents member same numbered
    (Function.update status.map v.number none)
  refine ⟨after, h', ?_, becomes.ofMap⟩
  rw [← represents.map] at found removed
  exact Option.bind_eq_some_iff.mpr ⟨r, found, removed⟩

theorem changeMappedReg_becomes (sound : Sound numVars status)
    (represents : Represents numVars arrays h status) (free : Free numVars status v r)
    (proper : v.type ≠ .fvoid) (changed : status.changeMappedReg v r = some status') :
    ∃ after h', h.changeMappedReg numVars arrays v r = some (after, h') ∧
      Becomes numVars arrays h after h' status' := by
  have range := inRange_of_free free
  have final := sound.changeMappedReg free changed
  obtain ⟨old, found, rfl⟩ := Option.map_eq_some_iff.mp changed
  obtain ⟨w, member, same⟩ := (sound.map_iff _ _).mp found
  obtain ⟨between, h1, removed, first⟩ := removeRMap_becomes sound represents member same
    free.numbered (Function.update status.map v.number (some r))
  obtain ⟨after, h', appended, second⟩ :=
    appendRMap_becomes first.represents range proper final
  have checked : h'.paired (some v.type) r = some h' := by
    refine paired_eq_some fun double => ?_
    rw [second.represents.refcount]
    exact final.refcount_behind (mem_appendRMap _ v r) (Option.some.inj double)
  refine ⟨after, h', ?_, (first.trans second).ofMap⟩
  rw [← represents.map] at found removed
  rw [changeMappedReg, if_pos range]
  refine Option.bind_eq_some_iff.mpr ⟨old, found, ?_⟩
  refine Option.bind_eq_some_iff.mpr ⟨(between, h1), removed, ?_⟩
  refine Option.bind_eq_some_iff.mpr ⟨(after, h'), appended, ?_⟩
  exact Option.bind_eq_some_iff.mpr ⟨h', checked, rfl⟩

/-! All variables of a place to another one. -/

theorem findVariables_eq {vars : List Var} (lists : Lists arrays (h.rmap r) vars)
    (count : h.refcount r = vars.length) (occupied : vars ≠ []) :
    h.findVariables arrays r = some (vars.map .var) := by
  unfold findVariables
  rw [count]
  generalize h.rmap r = word at lists ⊢
  cases lists with
  | none => exact absurd rfl occupied
  | one v => rfl
  | many several old contents =>
      match vars, several, contents with
      | _ :: _ :: _, _, contents => exact congrArg some contents

theorem foldlM_changeMap {r1 r2 : Nat} {vars : List Var} {map : Nat → Option Nat}
    (distinct : (vars.map Var.number).Nodup) (here : ∀ v ∈ vars, map v.number = some r1) :
    (vars.map .var).foldlM (changeMap r1 r2) map =
      some fun n => if ∃ v ∈ vars, v.number = n then some r2 else map n := by
  induction vars generalizing map with
  | nil => simp
  | cons v vars ih =>
      rw [List.map_cons, List.nodup_cons] at distinct
      rw [List.map_cons, List.foldlM_cons]
      have first : changeMap r1 r2 map (.var v) =
          some (Function.update map v.number (some r2)) := if_pos (here v List.mem_cons_self)
      rw [first, Option.bind_eq_bind, Option.bind_some, ih distinct.2]
      · refine congrArg some ?_
        funext n
        by_cases later : ∃ w ∈ vars, w.number = n
        · obtain ⟨w, member, number⟩ := later
          rw [if_pos ⟨w, member, number⟩, if_pos ⟨w, List.mem_cons_of_mem v member, number⟩]
        · rw [if_neg later]
          by_cases same : n = v.number
          · rw [same, Function.update_self, if_pos ⟨v, List.mem_cons_self, rfl⟩]
          · rw [Function.update_of_ne same, if_neg]
            intro ⟨w, member, number⟩
            rcases List.mem_cons.mp member with rfl | member
            · exact same number.symm
            · exact later ⟨w, member, number⟩
      · intro w member
        have other : w.number ≠ v.number := by
          intro same
          exact distinct.1 (same ▸ List.mem_map_of_mem member)
        rw [Function.update_of_ne other]
        exact here w (List.mem_cons_of_mem v member)

section

variable {r1 r2 : Nat}

theorem move_word {rmap : Nat → Entry} {s : Nat} (entry : Entry) (proper : entry ≠ .null)
    (here : Function.update (Function.update rmap r2 (rmap r1)) r1 .null s = entry) :
    s = r2 ∧ rmap r1 = entry ∨ s ≠ r2 ∧ s ≠ r1 ∧ rmap s = entry := by
  by_cases old : s = r1
  · rw [old, Function.update_self] at here
    exact absurd here.symm proper
  · rw [Function.update_of_ne old] at here
    by_cases new : s = r2
    · rw [new, Function.update_self] at here
      exact Or.inl ⟨new, here⟩
    · rw [Function.update_of_ne new] at here
      exact Or.inr ⟨new, old, here⟩

theorem Represents.move (represents : Represents numVars arrays h status) (different : r2 ≠ r1)
    (inRange : r2 < numOfLocations numVars) (map : Nat → Option Nat) (refcount : Nat → Nat) :
    Represents numVars arrays
      ⟨map, Function.update (Function.update h.rmap r2 (h.rmap r1)) r1 .null, refcount⟩
      ⟨map, Function.update (Function.update status.rmap r2 (status.rmap r1)) r1 [], refcount⟩ := by
  refine ⟨rfl, rfl, fun s => ?_, fun s other => ?_, ?_⟩
  · dsimp only
    by_cases old : s = r1
    · rw [old, Function.update_self, Function.update_self]
      exact .none
    · rw [Function.update_of_ne old, Function.update_of_ne old]
      by_cases new : s = r2
      · rw [new, Function.update_self, Function.update_self]
        exact represents.lists r1
      · rw [Function.update_of_ne new, Function.update_of_ne new]
        exact represents.lists s
  · rcases move_word _ other rfl with ⟨rfl, _⟩ | ⟨_, _, here⟩
    · exact inRange
    · refine represents.inside s fun null => other ?_
      exact here.symm.trans null
  · intro s t address here there
    rcases move_word (.array address) nofun here with ⟨rfl, first⟩ | ⟨_, old, first⟩
    · rcases move_word (.array address) nofun there with ⟨rfl, _⟩ | ⟨_, old', second⟩
      · rfl
      · exact absurd (represents.apart r1 t address first second).symm old'
    · rcases move_word (.array address) nofun there with ⟨rfl, second⟩ | ⟨_, _, second⟩
      · exact absurd (represents.apart s r1 address first second) old
      · exact represents.apart s t address first second

open LaTTe.Registers.AllocStat (Movable)

theorem changeReg_becomes (sound : Sound numVars status)
    (represents : Represents numVars arrays h status) (movable : Movable numVars status v r1 r2)
    (register : IsRegister r1 ∧ IsRegister r2) :
    ∃ status' h', status.changeReg r1 r2 = some status' ∧
      h.changeReg numVars arrays r1 r2 = some h' ∧
      Becomes numVars arrays h arrays h' status' := by
  obtain ⟨map, rmap, refcount⟩ := h
  obtain rfl : map = status.map := represents.map
  obtain rfl : refcount = status.refcount := represents.refcount
  obtain ⟨status', changed, emptied, filled⟩ := sound.changeReg_returns movable
  have final := sound.changeReg movable changed
  have different := sound.ne_of_movable movable
  have counted := sound.refcount_of_mem movable.member
  have positive := List.length_pos_of_mem movable.member
  have inRange : r2 < numOfLocations numVars := by
    have placed := movable.placed
    have width := v.type.width_pos
    unfold numOfLocations
    omega
  have place : Function.update (Function.update status.rmap r2 (status.rmap r1)) r1 [] r2 =
      status.rmap r1 := by
    rw [Function.update_of_ne different, Function.update_self]
  obtain ⟨t, rest, vars⟩ := List.exists_cons_of_length_pos positive
  have form := changed
  rw [Registers.AllocStat.changeReg] at form
  simp only [place] at form
  rw [vars, List.head?_cons, Option.map_some, Option.some_inj, ← vars] at form
  have there : t ∈ status'.rmap r2 := by
    rw [← form]
    dsimp only
    rw [place, vars]
    exact List.mem_cons_self
  refine ⟨status', ⟨status'.map, Function.update (Function.update rmap r2 (rmap r1)) r1 .null,
    status'.refcount⟩, changed, ?_, ?_⟩
  · rw [changeReg, if_pos ⟨register.1, register.2, sound.placed movable.member,
      represents.inside_of_mem movable.member, movable.placed.1, inRange,
      Nat.lt_of_lt_of_eq positive counted.symm, movable.free⟩]
    refine Option.bind_eq_some_iff.mpr ⟨(status.rmap r1).map .var, ?_, ?_⟩
    · refine findVariables_eq ?_ ?_ (List.ne_nil_of_mem movable.member)
      · dsimp only
        rw [Function.update_of_ne different, Function.update_self]
        exact represents.lists r1
      · dsimp only
        rw [Function.update_of_ne different, Function.update_self, counted]
    · refine Option.bind_eq_some_iff.mpr ⟨.var t, ?_, ?_⟩
      · rw [vars]
        rfl
      · refine Option.bind_eq_some_iff.mpr ⟨⟨status.map,
          Function.update (Function.update rmap r2 (rmap r1)) r1 .null, status'.refcount⟩, ?_, ?_⟩
        · have sort : ((Entry.var t).type = some .double) = (t.type = .double) :=
            propext Option.some_inj
          simp only [sort]
          refine (paired_eq_some fun double => ?_).trans (congrArg some ?_)
          · have behind := final.refcount_behind there (Option.some.inj double)
            rw [← form] at behind
            exact behind
          · rw [← form]
        · refine Option.bind_eq_some_iff.mpr ⟨status'.map, ?_, ?_⟩
          · rw [← form]
            refine foldlM_changeMap (sound.distinct r1) fun w member => ?_
            exact (sound.map_iff _ _).mpr ⟨w, member, rfl⟩
          · refine if_pos ⟨emptied, ?_⟩
            dsimp only
            rw [filled, counted]
            exact positive
  · refine ⟨?_, .refl _ _, ?_⟩
    · rw [← form]
      exact represents.move different inRange _ _
    · rintro address ⟨s, here⟩
      left
      rcases move_word (.array address) (by rintro ⟨⟩) here with ⟨_, before⟩ | ⟨_, _, before⟩
      · exact ⟨r1, before⟩
      · exact ⟨s, before⟩

end

end LaTTe.Registers.InMemory.AllocStat
