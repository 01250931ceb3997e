import Mathlib.Data.Fintype.Card
import Mathlib.Data.Set.Finite.Basic
import Mathlib.Logic.Relation
import Mathlib.Order.WellFounded

namespace LaTTe.Data

universe u

variable {α : Type u} {next : α → α → Prop}

/-! Following a relation from an item: `next b a` says that `b` may come after `a`. -/

def Circular (next : α → α → Prop) (a : α) : Prop :=
  ∃ b, Relation.ReflTransGen next b a ∧ Relation.TransGen next b b

theorem not_self_of_acc {a : α} (ends : Acc next a) : ¬ next a a := by
  induction ends with
  | intro a _ ih =>
      intro self
      exact ih a self self

theorem not_circular_of_acc {a : α} (ends : Acc next a) : ¬ Circular next a := by
  induction ends with
  | intro a below ih =>
      intro ⟨b, reached, cycle⟩
      cases reached with
      | refl => exact not_self_of_acc (Acc.intro a below).transGen cycle
      | tail earlier follows => exact ih _ follows ⟨b, earlier, cycle⟩

theorem acc_of_not_circular {items : Set α} (finite : items.Finite)
    (inside : ∀ a b, next b a → b ∈ items) {a : α} (straight : ¬ Circular next a) :
    Acc next a := by
  let reached : Set α := {b | b ∈ items ∧ Relation.TransGen next b a}
  have finiteReached : Finite reached := (finite.subset fun _ member => member.1).to_subtype
  let later : reached → reached → Prop := fun b c => Relation.TransGen next b.1 c.1
  have transitive : IsTrans reached later := ⟨fun _ _ _ first second => first.trans second⟩
  have irreflexive : Std.Irrefl later :=
    ⟨fun b cycle => straight ⟨b.1, b.2.2.to_reflTransGen, cycle⟩⟩
  have wellFounded : WellFounded later := Finite.wellFounded_of_trans_of_irrefl later
  have each : ∀ b : reached, Acc next b.1 := by
    intro b
    induction b using wellFounded.induction with
    | h b ih =>
        refine Acc.intro _ fun c follows => ?_
        exact ih ⟨c, inside _ _ follows, .head follows b.2.2⟩ (.single follows)
  refine Acc.intro a fun b follows => ?_
  exact each ⟨b, inside _ _ follows, .single follows⟩

end LaTTe.Data
