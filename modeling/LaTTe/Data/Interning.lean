import Mathlib.Data.List.Basic

namespace LaTTe.Data.Interning

universe u v

/-! Interning, over the history of a table: each key that is asked for is given one item,
until that item is removed. -/

variable {κ : Type u} {α : Type v}

inductive Event (κ : Type u) (α : Type v) where
  | made (k : κ) (a : α)
  | removed (a : α)

def Live (history : List (Event κ α)) (a : α) : Prop :=
  ∃ later earlier k, history = later ++ .made k a :: earlier ∧ .removed a ∉ later

/-- Two calls, without a removal of the first item in between, return the same item if and
only if they are for the same key. -/
def Interns (address : α → Nat) (history : List (Event κ α)) : Prop :=
  ∀ later k a between k' a' earlier,
    history = later ++ .made k a :: (between ++ .made k' a' :: earlier) →
      .removed a' ∉ between → (address a' = address a ↔ k' = k)

section

variable {history : List (Event κ α)} {k : κ} {a b : α}

theorem not_live_nil : ¬ Live ([] : List (Event κ α)) a :=
  fun ⟨_, _, _, split, _⟩ => absurd split.symm (List.append_ne_nil_of_right_ne_nil _ nofun)

theorem Live.made (live : Live (.made k a :: history) b) : b = a ∨ Live history b := by
  obtain ⟨later, earlier, k', split, kept⟩ := live
  cases later with
  | nil =>
      cases split
      exact .inl rfl
  | cons event rest =>
      cases split
      exact .inr ⟨rest, earlier, k', rfl, fun member => kept (List.mem_cons_of_mem _ member)⟩

theorem Live.removed (live : Live (.removed a :: history) b) : b ≠ a ∧ Live history b := by
  obtain ⟨later, earlier, k', split, kept⟩ := live
  cases later with
  | nil => cases split
  | cons event rest =>
      cases split
      refine ⟨fun same => kept (same ▸ List.mem_cons_self), rest, earlier, k', rfl, ?_⟩
      exact fun member => kept (List.mem_cons_of_mem _ member)

end

structure Kept (key : α → κ) (address : α → Nat) (has : α → Prop)
    (history : List (Event κ α)) : Prop where
  live : ∀ a, Live history a → has a
  keyed : ∀ k a, .made k a ∈ history → key a = k
  unique : ∀ a b, has a → has b → key a = key b → a = b
  addresses : ∀ a b, has a → has b → address a = address b → a = b
  interns : Interns address history

namespace Kept

variable {key : α → κ} {address : α → Nat} {has next : α → Prop} {history : List (Event κ α)}
variable {k : κ} {a : α}

theorem start (none : ∀ a, ¬ has a) : Kept key address has [] where
  live := fun _ live => absurd live not_live_nil
  keyed := nofun
  unique := fun a _ has => absurd has (none a)
  addresses := fun a _ has => absurd has (none a)
  interns := fun _ _ _ _ _ _ _ split =>
    absurd split.symm (List.append_ne_nil_of_right_ne_nil _ nofun)

/-- A call returns the item of its key, which is a new one if there was none. -/
theorem made (kept : Kept key address has history) (keyed : key a = k)
    (origin : has a ∨ ∀ b, has b → key b ≠ k)
    (apart : ∀ b, has b → address b = address a → b = a)
    (now : ∀ b, next b ↔ has b ∨ b = a) :
    Kept key address next (.made k a :: history) := by
  have addresses : ∀ b c, next b → next c → address b = address c → b = c := by
    intro b c first second equal
    cases (now b).mp first with
    | inl first =>
        cases (now c).mp second with
        | inl second => exact kept.addresses b c first second equal
        | inr last =>
            subst last
            exact apart b first equal
    | inr last =>
        subst last
        cases (now c).mp second with
        | inl second => exact (apart c second equal.symm).symm
        | inr last => exact last.symm
  have own : ∀ b, has b → key b = key a → b = a := by
    intro b present equal
    cases origin with
    | inl present' => exact kept.unique b a present present' equal
    | inr absent => exact absurd (equal.trans keyed) (absent b present)
  refine ⟨fun b live => ?_, fun k' b member => ?_, fun b c first second equal => ?_, addresses, ?_⟩
  · cases live.made with
    | inl last => exact (now b).mpr (.inr last)
    | inr live => exact (now b).mpr (.inl (kept.live b live))
  · cases List.mem_cons.mp member with
    | inl last =>
        obtain ⟨rfl, rfl⟩ := Event.made.inj last
        exact keyed
    | inr member => exact kept.keyed k' b member
  · cases (now b).mp first with
    | inl first =>
        cases (now c).mp second with
        | inl second => exact kept.unique b c first second equal
        | inr last =>
            subst last
            exact own b first equal
    | inr last =>
        subst last
        cases (now c).mp second with
        | inl second => exact (own c second equal.symm).symm
        | inr last => exact last.symm
  · intro later k₂ a₂ between k₁ a₁ earlier split quiet
    cases later with
    | cons event rest =>
        cases split
        exact kept.interns rest k₂ a₂ between k₁ a₁ earlier rfl quiet
    | nil =>
        cases split
        have present := kept.live a₁ ⟨between, earlier, k₁, rfl, quiet⟩
        have keyed₁ := kept.keyed k₁ a₁ (List.mem_append_right _ List.mem_cons_self)
        constructor
        · intro equal
          rw [← keyed₁, apart a₁ present equal, keyed]
        · intro same
          rw [own a₁ present (keyed₁.trans (same.trans keyed.symm))]

theorem removed (kept : Kept key address has history)
    (now : ∀ b, next b ↔ has b ∧ b ≠ a) : Kept key address next (.removed a :: history) := by
  refine ⟨fun b live => ?_, fun k b member => ?_, fun b c first second => ?_,
    fun b c first second => ?_, ?_⟩
  · obtain ⟨apart, live⟩ := live.removed
    exact (now b).mpr ⟨kept.live b live, apart⟩
  · cases List.mem_cons.mp member with
    | inl last => contradiction
    | inr member => exact kept.keyed k b member
  · exact kept.unique b c ((now b).mp first).1 ((now c).mp second).1
  · exact kept.addresses b c ((now b).mp first).1 ((now c).mp second).1
  · intro later k₂ a₂ between k₁ a₁ earlier split
    cases later with
    | nil => cases split
    | cons event rest =>
        cases split
        exact kept.interns rest k₂ a₂ between k₁ a₁ earlier rfl

end Kept

end LaTTe.Data.Interning
