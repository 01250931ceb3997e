import Mathlib.Data.Set.Insert
import Mathlib.Logic.Relation

namespace LaTTe.Data

open Relation (ReflTransGen)

universe u

variable {α : Type u} {edge : α → α → Prop} {root a b : α} {visited pending pending' : Set α}

/-! A traversal of a graph has visited some nodes, and others are pending. -/

structure Covers (edge : α → α → Prop) (root : α) (visited pending : Set α) : Prop where
  reached : ∀ a, a ∈ visited ∨ a ∈ pending → ReflTransGen edge root a
  root : root ∈ visited ∨ root ∈ pending
  edges : ∀ a ∈ visited, ∀ b, edge a b → b ∈ visited ∨ b ∈ pending

namespace Covers

theorem start : Covers edge root ∅ {root} where
  reached a covered := by
    obtain rfl : a = root := covered.resolve_left (Set.notMem_empty a)
    exact .refl
  root := .inr rfl
  edges a seen := absurd seen (Set.notMem_empty a)

/-- A node that has been visited before is no longer pending. -/
theorem known (covers : Covers edge root visited pending) (less : pending' ⊆ pending)
    (dropped : ∀ a ∈ pending, a ∈ visited ∨ a ∈ pending') :
    Covers edge root visited pending' where
  reached a covered := covers.reached a (covered.imp_right (@less a))
  root := covers.root.elim .inl (dropped root)
  edges a seen b next := (covers.edges a seen b next).elim .inl (dropped b)

theorem visit (covers : Covers edge root visited pending) (here : a ∈ pending)
    (old : ∀ b ∈ pending, b = a ∨ b ∈ pending') (new : ∀ b, edge a b → b ∈ pending')
    (only : ∀ b ∈ pending', edge a b ∨ b ∈ pending) :
    Covers edge root (insert a visited) pending' where
  reached b covered := by
    have reaches := covers.reached a (.inr here)
    rcases covered with (rfl | seen) | waits
    · exact reaches
    · exact covers.reached b (.inl seen)
    · rcases only b waits with next | waits
      · exact reaches.tail next
      · exact covers.reached b (.inr waits)
  root := covers.root.elim (.inl ∘ .inr) fun waits => (old root waits).imp_left .inl
  edges b seen c next := by
    rcases seen with rfl | seen
    · exact .inr (new c next)
    · exact (covers.edges b seen c next).elim (.inl ∘ .inr) fun waits => (old c waits).imp_left .inl

theorem visited_iff (covers : Covers edge root visited pending) (finished : ∀ a, a ∉ pending) :
    a ∈ visited ↔ ReflTransGen edge root a := by
  constructor
  · exact fun seen => covers.reached a (.inl seen)
  · intro path
    induction path with
    | refl => exact covers.root.resolve_right (finished root)
    | tail _ next ih => exact (covers.edges _ ih _ next).resolve_right (finished _)

end Covers

/-- Two graphs that agree on what can be reached. -/
theorem reaches_congr {edge' : α → α → Prop} {inside : Set α} (start : root ∈ inside)
    (closed : ∀ a ∈ inside, ∀ b, edge a b → b ∈ inside)
    (same : ∀ a ∈ inside, ∀ b, edge a b ↔ edge' a b) :
    ReflTransGen edge root a ↔ ReflTransGen edge' root a := by
  have stays : ∀ {b}, ReflTransGen edge root b → b ∈ inside := by
    intro b path
    induction path with
    | refl => exact start
    | tail _ next ih => exact closed _ ih _ next
  constructor
  · intro path
    induction path with
    | refl => exact .refl
    | tail path next ih => exact ih.tail ((same _ (stays path) _).mp next)
  · intro path
    induction path with
    | refl => exact .refl
    | tail _ next ih => exact ih.tail ((same _ (stays ih) _).mpr next)

end LaTTe.Data
