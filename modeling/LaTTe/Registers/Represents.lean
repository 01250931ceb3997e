import LaTTe.Registers.InMemory
import LaTTe.Registers.Spread
import Mathlib.Data.List.InsertIdx

namespace LaTTe.Registers.InMemory

open LaTTe.Data

/-! What the words in memory stand for. -/

inductive Lists (arrays : Arrays Entry) : Entry → List Var → Prop where
  | none : Lists arrays .null []
  | one (v : Var) : Lists arrays (.var v) [v]
  | many {address : Nat} {vars : List Var} (several : 2 ≤ vars.length)
      (old : address < arrays.allocated)
      (contents : (arrays.contents address).take vars.length = vars.map .var) :
      Lists arrays (.array address) vars

theorem Lists.keeps {arrays after : Arrays Entry} {own : Nat → Prop} {entry : Entry}
    {vars : List Var} (lists : Lists arrays entry vars) (keeps : arrays.Keeps own after)
    (foreign : ∀ address, entry = .array address → ¬ own address) : Lists after entry vars := by
  cases lists with
  | none => exact .none
  | one v => exact .one v
  | many several old contents =>
      refine .many several (Nat.lt_of_lt_of_le old keeps.grows) ?_
      rw [keeps.same _ old (foreign _ rfl), contents]

theorem Lists.alloc {arrays : Arrays Entry} {items : List Entry} {vars : List Var}
    (several : 2 ≤ vars.length) (contents : items = vars.map .var) :
    Lists (arrays.alloc items) (.array arrays.allocated) vars := by
  refine .many several (Nat.lt_succ_self _) ?_
  rw [Arrays.alloc]
  dsimp only
  rw [Function.update_self, contents, ← List.length_map (f := Entry.var), List.take_length]

namespace AllocStat

def Owns (h : AllocStat) (address : Nat) : Prop :=
  ∃ r, h.rmap r = .array address

structure Represents (numVars : Nat) (arrays : Arrays Entry) (h : AllocStat)
    (status : Registers.AllocStat) : Prop where
  map : h.map = status.map
  refcount : h.refcount = status.refcount
  lists : ∀ r, Lists arrays (h.rmap r) (status.rmap r)
  inside : ∀ r, h.rmap r ≠ .null → r < numOfLocations numVars
  apart : ∀ r s address, h.rmap r = .array address → h.rmap s = .array address → r = s

/-- After an operation: no array but those of the status is another one than before, and
the arrays it has now are its own or new. -/
structure Becomes (numVars : Nat) (arrays : Arrays Entry) (h : AllocStat)
    (after : Arrays Entry) (h' : AllocStat) (status : Registers.AllocStat) : Prop where
  represents : Represents numVars after h' status
  keeps : arrays.Keeps h.Owns after
  owns : ∀ address, h'.Owns address → h.Owns address ∨ arrays.allocated ≤ address

variable {numVars : Nat} {arrays after last : Arrays Entry} {h h' h'' : AllocStat}
  {status status' : Registers.AllocStat} {v w : Var} {r : Nat} {entry : Entry}

theorem Represents.init : Represents numVars arrays init Registers.AllocStat.init where
  map := rfl
  refcount := rfl
  lists := fun _ => .none
  inside := fun _ other => absurd rfl other
  apart := nofun

theorem Represents.old (represents : Represents numVars arrays h status) {address : Nat}
    (owns : h.Owns address) : address < arrays.allocated := by
  obtain ⟨r, here⟩ := owns
  have lists := represents.lists r
  rw [here] at lists
  cases lists with
  | many _ old _ => exact old

theorem Represents.inside_of_mem (represents : Represents numVars arrays h status)
    (member : v ∈ status.rmap r) : r < numOfLocations numVars := by
  refine represents.inside r fun null => ?_
  have lists := represents.lists r
  rw [null] at lists
  generalize status.rmap r = vars at member lists
  cases lists with
  | none => cases member

theorem Represents.keeps (represents : Represents numVars arrays h status) {own : Nat → Prop}
    (keeps : arrays.Keeps own after) (foreign : ∀ address, h.Owns address → ¬ own address) :
    Represents numVars after h status where
  map := represents.map
  refcount := represents.refcount
  lists := fun r =>
    (represents.lists r).keeps keeps fun address here => foreign address ⟨r, here⟩
  inside := represents.inside
  apart := represents.apart

theorem Represents.withMap (represents : Represents numVars arrays h status)
    (map : Nat → Option Nat) :
    Represents numVars arrays { h with map := map } { status with map := map } where
  map := rfl
  refcount := represents.refcount
  lists := represents.lists
  inside := represents.inside
  apart := represents.apart

theorem Becomes.trans (first : Becomes numVars arrays h after h' status)
    (second : Becomes numVars after h' last h'' status') :
    Becomes numVars arrays h last h'' status' where
  represents := second.represents
  keeps := first.keeps.trans second.keeps first.owns
  owns := by
    intro address owns
    rcases second.owns address owns with before | new
    · exact first.owns address before
    · exact Or.inr (Nat.le_trans first.keeps.grows new)

/-- A word of `rmap` is replaced. -/
theorem Represents.set (represents : Represents numVars arrays h status) {vars : List Var}
    (keeps : arrays.Keeps (fun address => h.rmap r = .array address) after)
    (lists : Lists after entry vars) (inRange : r < numOfLocations numVars)
    (fresh : ∀ address, entry = .array address →
      h.rmap r = .array address ∨ arrays.allocated ≤ address) (refcount : Nat → Nat) :
    Becomes numVars arrays h after ⟨h.map, Function.update h.rmap r entry, refcount⟩
      ⟨status.map, Function.update status.rmap r vars, refcount⟩ := by
  have place : ∀ s address, Function.update h.rmap r entry s = .array address →
      h.rmap s = .array address ∨ s = r ∧ arrays.allocated ≤ address := by
    intro s address here
    by_cases same : s = r
    · subst same
      rw [Function.update_self] at here
      exact (fresh address here).imp_right fun new => ⟨rfl, new⟩
    · rw [Function.update_of_ne same] at here
      exact Or.inl here
  refine ⟨⟨represents.map, rfl, fun s => ?_, fun s other => ?_, ?_⟩, ?_, ?_⟩
  · dsimp only
    by_cases same : s = r
    · subst same
      rw [Function.update_self, Function.update_self]
      exact lists
    · rw [Function.update_of_ne same, Function.update_of_ne same]
      refine (represents.lists s).keeps keeps fun address here there => ?_
      exact same (represents.apart s r address here there)
  · by_cases same : s = r
    · exact same ▸ inRange
    · dsimp only at other
      rw [Function.update_of_ne same] at other
      exact represents.inside s other
  · intro s t address here there
    rcases place s address here with before | ⟨rfl, new⟩
    · rcases place t address there with before' | ⟨_, new⟩
      · exact represents.apart s t address before before'
      · exact absurd (represents.old ⟨s, before⟩) (Nat.not_lt_of_le new)
    · rcases place t address there with before' | ⟨same, _⟩
      · exact absurd (represents.old ⟨t, before'⟩) (Nat.not_lt_of_le new)
      · exact same.symm
  · exact ⟨keeps.grows, fun address old foreign => keeps.same address old fun here =>
      foreign ⟨r, here⟩⟩
  · intro address ⟨s, here⟩
    rcases place s address here with before | ⟨_, new⟩
    · exact Or.inl ⟨s, before⟩
    · exact Or.inr new

/-! One more variable in a place. -/

structure Replaces (arrays : Arrays Entry) (h : AllocStat) (r : Nat) (after : Arrays Entry)
    (entry : Entry) (vars : List Var) : Prop where
  keeps : arrays.Keeps (fun address => h.rmap r = .array address) after
  lists : Lists after entry vars
  fresh : ∀ address, entry = .array address →
    h.rmap r = .array address ∨ arrays.allocated ≤ address

theorem Replaces.alloc {items : List Entry} {vars : List Var} (several : 2 ≤ vars.length)
    (contents : items = vars.map .var) :
    Replaces arrays h r (arrays.alloc items) (.array arrays.allocated) vars where
  keeps := .alloc _ _ _
  lists := .alloc several contents
  fresh := by
    rintro address ⟨⟩
    exact Or.inr (Nat.le_refl _)

theorem appended_replaces (represents : Represents numVars arrays h status) (v : Var)
    (counted : status.refcount r = 0 ∨ status.refcount r = (status.rmap r).length) :
    ∃ after entry, h.appended arrays v r = some (after, entry) ∧
      Replaces arrays h r after entry
        (if status.refcount r = 0 then [v] else status.rmap r ++ [v]) := by
  have count := congrFun represents.refcount r
  have lists := represents.lists r
  unfold appended
  rcases counted with zero | counted
  · rw [count, zero]
    refine ⟨arrays, .var v, rfl, ⟨.refl _ _, ?_, nofun⟩⟩
    exact .one v
  · rw [count, counted]
    cases vars : status.rmap r with
    | nil =>
        exact ⟨arrays, .var v, rfl, ⟨.refl _ _, .one v, nofun⟩⟩
    | cons first rest =>
        rw [vars] at lists
        rw [if_neg (show (first :: rest).length ≠ 0 from Nat.succ_ne_zero _)]
        generalize h.rmap r = word at lists ⊢
        cases lists with
        | one =>
            exact ⟨_, _, rfl, .alloc (Nat.le_refl 2) rfl⟩
        | many several old contents =>
            obtain ⟨second, rest, rfl⟩ := List.exists_cons_of_length_pos
              (Nat.lt_of_succ_lt_succ several)
            refine ⟨_, _, rfl, .alloc (by simp) ?_⟩
            rw [contents, List.map_append]
            rfl

/-! One variable less in a place. -/

theorem findIdx_of_mem {vars : List Var} (member : w ∈ vars) :
    ∃ i < vars.length,
      ((vars.map Entry.var).findIdx? fun entry => entry.number = some w.number) = some i ∧
        vars[i]? = vars.find? (·.number = w.number) ∧
          vars.eraseIdx i = vars.eraseP (·.number = w.number) := by
  have loop : ((vars.map Entry.var).findIdx? fun entry => entry.number = some w.number) =
      vars.findIdx? (·.number = w.number) := by
    rw [List.findIdx?_map]
    refine congrArg (List.findIdx? · vars) ?_
    funext v
    exact decide_eq_decide.mpr (Option.some_inj (a := v.number))
  rw [loop]
  cases found : vars.findIdx? (·.number = w.number) with
  | none =>
      have absent := List.findIdx?_eq_none_iff.mp found w member
      rw [decide_eq_false_iff_not] at absent
      exact absurd rfl absent
  | some i =>
      refine ⟨i, (List.findIdx?_eq_some_iff_getElem.mp found).1, rfl, ?_, ?_⟩
      · rw [List.find?_eq_bind_findIdx?_getElem?, found, Option.bind_some]
      · rw [List.eraseP_eq_eraseIdx, found]

theorem removed_one (count : h.refcount r = 1) (number : Nat) :
    h.removed arrays number r = some (arrays, some (h.rmap r), .null) := by
  rw [removed, count]
  rfl

theorem removed_two {address : Nat} {first second : Entry} {rest : List Entry}
    (count : h.refcount r = 2) (word : h.rmap r = .array address)
    (array : arrays.contents address = first :: second :: rest) (number : Nat) :
    h.removed arrays number r =
      if first.number = some number then some (arrays, some first, second)
      else some (arrays, some second, first) := by
  rw [removed, count, word]
  simp only [array]

theorem removed_many {address number i k : Nat} (count : h.refcount r = k + 3)
    (word : h.rmap r = .array address)
    (found : ((arrays.contents address).take (k + 3)).findIdx?
      (fun entry => entry.number = some number) = some i) :
    h.removed arrays number r =
      some (arrays.write address (Arrays.closeGap (arrays.contents address) i (k + 3)),
        (arrays.contents address)[i]?, .array address) := by
  rw [removed, count, word]
  simp only [found]

theorem Replaces.write {address i : Nat} {vars : List Var} (word : h.rmap r = .array address)
    (old : address < arrays.allocated)
    (contents : (arrays.contents address).take vars.length = vars.map .var)
    (inside : i < vars.length) (several : 3 ≤ vars.length) :
    Replaces arrays h r
      (arrays.write address (Arrays.closeGap (arrays.contents address) i vars.length))
      (.array address) (vars.eraseIdx i) where
  keeps := .write word _ _
  lists := by
    have enough : vars.length ≤ (arrays.contents address).length := by
      have length := congrArg List.length contents
      rw [List.length_take, List.length_map] at length
      omega
    have shorter := List.length_eraseIdx_of_lt inside
    refine .many (by omega) old ?_
    rw [Arrays.write]
    dsimp only
    rw [Function.update_self, shorter, Arrays.take_closeGap inside enough, contents,
      List.eraseIdx_map]
  fresh := by
    rintro other ⟨⟩
    exact Or.inl word

theorem removed_replaces (represents : Represents numVars arrays h status)
    (member : w ∈ status.rmap r) (counted : status.refcount r = (status.rmap r).length) :
    ∃ after found entry, h.removed arrays w.number r = some (after, found, entry) ∧
      found = (Registers.AllocStat.takeOut (status.refcount r) w.number
        (status.rmap r)).1.map Entry.var ∧
      Replaces arrays h r after entry
        (Registers.AllocStat.takeOut (status.refcount r) w.number (status.rmap r)).2 := by
  have count := (congrFun represents.refcount r).trans counted
  have lists := represents.lists r
  rw [counted]
  generalize status.rmap r = vars at member count lists ⊢
  generalize word : h.rmap r = entry at lists
  cases lists with
  | none => cases member
  | one v =>
      refine ⟨_, _, _, removed_one count _, ?_, .refl _ _, .none, nofun⟩
      exact congrArg some word
  | many several old contents =>
      rename_i address
      match vars, member, several, contents, count with
      | [first, second], _, _, contents, count =>
          have array := List.take_append_drop 2 (arrays.contents address)
          rw [show (arrays.contents address).take 2 = _ from contents] at array
          rw [removed_two count word array.symm]
          have taken : Registers.AllocStat.takeOut [first, second].length w.number [first, second] =
            if first.number = w.number then (some first, [second]) else (some second, [first]) := rfl
          by_cases here : first.number = w.number
          · rw [if_pos here] at taken
            rw [taken]
            exact ⟨_, _, _, if_pos (congrArg some here), rfl, .refl _ _, .one second, nofun⟩
          · rw [if_neg here] at taken
            rw [taken]
            exact ⟨_, _, _, if_neg fun same => here (Option.some.inj same), rfl, .refl _ _,
              .one first, nofun⟩
      | first :: second :: third :: rest, member, _, contents, count =>
          obtain ⟨i, inside, found, taken, erased⟩ := findIdx_of_mem member
          have replaces := Replaces.write word old contents inside (Nat.le_add_left 3 _)
          have item := List.getElem?_take_of_lt (l := arrays.contents address) inside
          rw [contents, List.getElem?_map, taken] at item
          rw [← contents] at found
          refine ⟨_, _, _, removed_many count word found, item.symm, ?_⟩
          rw [erased] at replaces
          exact replaces

end AllocStat

end LaTTe.Registers.InMemory
