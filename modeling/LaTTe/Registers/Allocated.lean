import LaTTe.Registers.Pressure
import LaTTe.Registers.WordMoves

namespace LaTTe.Registers.AllocStat

/-! The states in which the variables have proper places. -/

def Available (h : AllocStat) : Prop := ∀ r, ∀ v ∈ h.rmap r, isAvailable r

structure Allocated (numVars : Nat) (reserved : Nat → Bool) (h : AllocStat) : Prop where
  consistent : Consistent numVars reserved h
  typed : h.Typed
  available : h.Available

def insertAll (vars : List (Var × Nat)) (h : AllocStat) : AllocStat :=
  vars.foldl (fun h (v, r) => h.insert v r) h

structure Placed (numVars : Nat) (v : Var) (r : Nat) : Prop where
  placed : 0 < r ∧ r + v.type.width ≤ regNumber + numVars
  numbered : v.number + v.type.width ≤ numVars
  suits : Suits v.type r
  available : isAvailable r

structure Compatible (v : Var) (r : Nat) (w : Var) (s : Nat) : Prop where
  apart : Apart v.number v.type.width w.number w.type.width
  shared : Apart r v.type.width s w.type.width ∨ r = s ∧ v.type.width = w.type.width

structure WellRecorded (numVars : Nat) (vars : List (Var × Nat)) : Prop where
  placed : ∀ p ∈ vars, Placed numVars p.1 p.2
  compatible : vars.Pairwise fun p q => Compatible p.1 p.2 q.1 q.2

section

variable {numVars : Nat} {reserved : Nat → Bool} {h : AllocStat} {vars : List (Var × Nat)}
  {v w : Var} {r s : Nat}

theorem Compatible.symm (compatible : Compatible v r w s) : Compatible w s v r where
  apart := compatible.apart.symm
  shared := compatible.shared.imp Apart.symm fun same => ⟨same.1.symm, same.2.symm⟩

theorem Compatible.number_ne (compatible : Compatible v r w s) : v.number ≠ w.number := by
  have apart := compatible.apart
  unfold Apart at apart
  have := v.type.width_pos
  have := w.type.width_pos
  omega

theorem allocated_init : init.Allocated numVars fun _ => false where
  consistent := consistent_init
  typed := nofun
  available := nofun

/-- Variables that fit together and to the state all get their places. -/
theorem Allocated.insertAll (allocated : h.Allocated numVars fun _ => false)
    (recorded : WellRecorded numVars vars)
    (fresh : ∀ p ∈ vars, ∀ s, ∀ w ∈ h.rmap s, Compatible p.1 p.2 w s) :
    (h.insertAll vars).Allocated numVars (fun _ => false) ∧
      ∀ w s, w ∈ (h.insertAll vars).rmap s ↔ w ∈ h.rmap s ∨ (w, s) ∈ vars := by
  induction vars generalizing h with
  | nil => exact ⟨allocated, fun w s => by simp [AllocStat.insertAll]⟩
  | cons p rest ih =>
      obtain ⟨v, r⟩ := p
      have placed := recorded.placed _ List.mem_cons_self
      have compatible := List.pairwise_cons.mp recorded.compatible
      have fresh' := fresh _ List.mem_cons_self
      have members (w : Var) (s : Nat) :
          w ∈ (h.insert v r).rmap s ↔ w ∈ h.rmap s ∨ s = r ∧ w = v := by
        rw [mem_insert allocated.consistent]
        exact or_congr_left ⟨And.left, fun member =>
          ⟨member, (fresh' s w member).number_ne.symm⟩⟩
      have inserted : (h.insert v r).Allocated numVars fun _ => false := by
        refine ⟨allocated.consistent.insert ⟨placed.placed, placed.numbered,
          fun s w member _ => (fresh' s w member).apart,
          fun s w member _ => (fresh' s w member).shared, rfl, fun _ => rfl⟩, ?_, ?_⟩
        · intro s w member
          rcases (members w s).mp member with member | ⟨rfl, rfl⟩
          · exact allocated.typed s w member
          · exact placed.suits
        · intro s w member
          rcases (members w s).mp member with member | ⟨rfl, rfl⟩
          · exact allocated.available s w member
          · exact placed.available
      obtain ⟨allocated', members'⟩ := ih inserted
        ⟨fun q member => recorded.placed q (List.mem_cons_of_mem _ member), compatible.2⟩
        fun q member s w member' => by
          rcases (members w s).mp member' with member' | ⟨rfl, rfl⟩
          · exact fresh q (List.mem_cons_of_mem _ member) s w member'
          · exact (compatible.1 q member).symm
      refine ⟨allocated', fun w s => ?_⟩
      rw [AllocStat.insertAll, List.foldl_cons]
      refine (members' w s).trans ?_
      rw [members, List.mem_cons, Prod.mk.injEq, or_assoc, and_comm (a := s = r)]

theorem not_scratch_of_available (available : isAvailable r) : ¬ IsScratch r := by
  rintro (rfl | rfl)
  · exact absurd available (by decide)
  · exact absurd available (by decide)

theorem Allocated.not_scratch (allocated : h.Allocated numVars reserved)
    (member : v ∈ h.rmap r) : ¬ IsScratch r :=
  not_scratch_of_available (allocated.available r v member)

end

end LaTTe.Registers.AllocStat
