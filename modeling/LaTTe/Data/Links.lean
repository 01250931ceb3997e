import Mathlib.Data.List.Induction
import Mathlib.Data.List.Nodup
import Mathlib.Logic.Function.Basic

namespace LaTTe.Data

universe u v

variable {Root : Type u} {Node : Type v}

/-! Lists whose nodes have one link each, so that a node is in one list at most.  They are
changed through pointers to links. -/

structure Links (Root : Type u) (Node : Type v) where
  first : Root → Option Node
  next : Node → Option Node

inductive Place (Root : Type u) (Node : Type v) where
  | root (root : Root)
  | link (node : Node)
  deriving DecidableEq

namespace Place

def behind : Place Root Node → List Node → Place Root Node
  | place, [] => place
  | _, node :: rest => (link node).behind rest

def owner : Place Root Node → Option Node
  | root _ => none
  | link node => some node

variable {place : Place Root Node} {nodes : List Node}

@[simp] theorem behind_nil : place.behind [] = place :=
  rfl

@[simp] theorem behind_cons {node : Node} : place.behind (node :: nodes) = (link node).behind nodes :=
  rfl

theorem behind_append_singleton {node : Node} : place.behind (nodes ++ [node]) = link node := by
  induction nodes generalizing place with
  | nil => rfl
  | cons _ _ ih => exact ih

theorem behind_cases (place : Place Root Node) (nodes : List Node) :
    nodes = [] ∧ place.behind nodes = place ∨ ∃ node ∈ nodes, place.behind nodes = link node := by
  induction nodes generalizing place with
  | nil => exact .inl ⟨rfl, rfl⟩
  | cons node rest ih =>
      right
      rcases ih (link node) with ⟨_, same⟩ | ⟨last, member, same⟩
      · exact ⟨node, List.mem_cons_self, same⟩
      · exact ⟨last, List.mem_cons_of_mem _ member, same⟩

theorem link_ne_behind {root : Root} {node : Node} (absent : node ∉ nodes) :
    Place.link node ≠ (Place.root root).behind nodes := by
  intro equal
  rcases behind_cases (.root root) nodes with ⟨_, here⟩ | ⟨last, inside, here⟩
  · rw [here] at equal
    cases equal
  · rw [here] at equal
    cases equal
    exact absent inside

theorem root_ne_behind {root root' : Root} (other : root' ≠ root) :
    Place.root root' ≠ (Place.root root : Place Root Node).behind nodes := by
  intro equal
  rcases behind_cases (.root root) nodes with ⟨_, here⟩ | ⟨last, _, here⟩
  · rw [here] at equal
    cases equal
    exact other rfl
  · rw [here] at equal
    cases equal

theorem owner_behind (root : Root) (nodes : List Node) :
    ((Place.root root).behind nodes).owner = nodes.getLast? := by
  induction nodes using List.reverseRecOn with
  | nil => rfl
  | append_singleton nodes last _ => rw [behind_append_singleton, List.getLast?_concat, owner]

end Place

namespace Links

def get (links : Links Root Node) : Place Root Node → Option Node
  | .root root => links.first root
  | .link node => links.next node

def Leads (links : Links Root Node) : Place Root Node → List Node → Prop
  | place, [] => links.get place = none
  | place, node :: rest => links.get place = some node ∧ links.Leads (.link node) rest

/-- The loop that goes along a list up to the first node with `stop`. -/
def walk (links : Links Root Node) (stop : Node → Bool) :
    Nat → Place Root Node → Place Root Node
  | 0, place => place
  | fuel + 1, place =>
      match links.get place with
      | none => place
      | some node => if stop node then place else links.walk stop fuel (.link node)

variable {links other : Links Root Node} {place : Place Root Node}
  {front back nodes new : List Node}

@[simp] theorem leads_nil : links.Leads place [] ↔ links.get place = none :=
  Iff.rfl

@[simp] theorem leads_cons {node : Node} :
    links.Leads place (node :: nodes) ↔ links.get place = some node ∧ links.Leads (.link node) nodes :=
  Iff.rfl

theorem Leads.get_eq (leads : links.Leads place nodes) : links.get place = nodes.head? := by
  cases nodes with
  | nil => exact leads
  | cons node rest => exact leads.1

theorem Leads.behind (leads : links.Leads place (front ++ back)) :
    links.Leads (place.behind front) back := by
  induction front generalizing place with
  | nil => exact leads
  | cons node rest ih => exact ih leads.2

theorem Leads.congr {place' : Place Root Node} (leads : links.Leads place nodes)
    (start : other.get place' = links.get place)
    (same : ∀ node ∈ nodes, other.next node = links.next node) : other.Leads place' nodes := by
  induction nodes generalizing place place' with
  | nil => exact start.trans leads
  | cons node rest ih =>
      refine ⟨start.trans leads.1, ih leads.2 (same node List.mem_cons_self) ?_⟩
      exact fun entry member => same entry (List.mem_cons_of_mem _ member)

theorem Leads.splice (leads : links.Leads place (front ++ back)) (distinct : front.Nodup)
    (apart : ∀ node ∈ front, place ≠ .link node)
    (same : ∀ place' : Place Root Node, (place' = place ∨ ∃ node ∈ front, place' = .link node) →
      place' ≠ place.behind front → other.get place' = links.get place')
    (behind : other.Leads (place.behind front) new) : other.Leads place (front ++ new) := by
  induction front generalizing place with
  | nil => exact behind
  | cons node rest ih =>
      obtain ⟨head, later⟩ := leads
      obtain ⟨fresh, distinct'⟩ := List.nodup_cons.mp distinct
      constructor
      · rw [← head]
        apply same place (.inl rfl)
        intro whole
        rcases Place.behind_cases (.link node) rest with ⟨_, here⟩ | ⟨last, member, here⟩
        · exact apart node List.mem_cons_self (whole.trans here)
        · exact apart last (List.mem_cons_of_mem _ member) (whole.trans here)
      · apply ih later distinct' _ _ behind
        · intro entry member equal
          cases equal
          exact fresh member
        · intro place' among
          apply same
          right
          rcases among with rfl | ⟨entry, member, rfl⟩
          · exact ⟨node, List.mem_cons_self, rfl⟩
          · exact ⟨entry, List.mem_cons_of_mem _ member, rfl⟩

theorem walk_eq {stop : Node → Bool} {fuel : Nat} (leads : links.Leads place (front ++ back))
    (passed : ∀ node ∈ front, stop node = false)
    (halts : ∀ node, back.head? = some node → stop node = true) (enough : front.length ≤ fuel) :
    links.walk stop fuel place = place.behind front := by
  induction front generalizing place fuel with
  | nil =>
      cases fuel with
      | zero => rfl
      | succ fuel =>
          rw [walk, Leads.get_eq leads]
          cases head : back.head? with
          | none => rw [List.nil_append, head, Place.behind_nil]
          | some node =>
              rw [List.nil_append, head]
              exact if_pos (halts node head)
  | cons node rest ih =>
      cases fuel with
      | zero => cases enough
      | succ fuel =>
          rw [walk, leads.1]
          dsimp only
          rw [passed node List.mem_cons_self, if_neg Bool.false_ne_true]
          exact ih leads.2 (fun entry member => passed entry (List.mem_cons_of_mem _ member))
            (Nat.le_of_succ_le_succ enough)

structure Holds (links : Links Root Node) (lists : Root → List Node) : Prop where
  leads : ∀ root, links.Leads (.root root) (lists root)
  distinct : ∀ root, (lists root).Nodup
  apart : ∀ {root root' node}, node ∈ lists root → node ∈ lists root' → root = root'

def Free (lists : Root → List Node) (node : Node) : Prop :=
  ∀ root, node ∉ lists root

variable {lists : Root → List Node} {node : Node}

theorem Holds.first_eq (holds : links.Holds lists) (root : Root) :
    links.first root = (lists root).head? :=
  (holds.leads root).get_eq

section

variable [DecidableEq Root]

/-- One list gets another end.  What is new in it was in no list. -/
theorem Holds.replace (holds : links.Holds lists) (root : Root) (split : lists root = front ++ back)
    (same : ∀ place : Place Root Node, place ≠ (Place.root root).behind front →
      (∀ node, place = .link node → ¬Free lists node) → other.get place = links.get place)
    (leads : other.Leads ((Place.root root).behind front) new) (distinct : (front ++ new).Nodup)
    (fresh : ∀ node ∈ new, node ∈ back ∨ Free lists node) :
    other.Holds (Function.update lists root (front ++ new)) := by
  have inFront : ∀ node ∈ front, node ∈ lists root := by
    intro node member
    rw [split]
    exact List.mem_append_left _ member
  have held : ∀ {node' root'}, node' ∈ lists root' → ¬Free lists node' := by
    intro node' root' member free
    exact free root' member
  have stays : ∀ {node' root'}, root' ≠ root → node' ∈ lists root' → node' ∉ front ++ new := by
    intro node' root' elsewhere member inside
    apply elsewhere
    apply holds.apart member
    rcases List.mem_append.mp inside with early | late
    · exact inFront _ early
    · rcases fresh _ late with old | free
      · rw [split]
        exact List.mem_append_right _ old
      · exact absurd member (free root')
  constructor
  · intro root'
    by_cases here : root' = root
    · subst here
      rw [Function.update_self]
      apply (split ▸ holds.leads root').splice (List.Nodup.of_append_left distinct) _ _ leads
      · intro node _ equal
        cases equal
      · intro place among elsewhere
        apply same place elsewhere
        rintro node rfl
        rcases among with equal | ⟨entry, member, equal⟩
        · cases equal
        · cases equal
          exact held (inFront _ member)
    · rw [Function.update_of_ne here]
      refine (holds.leads root').congr (same _ ?_ ?_) ?_
      · exact Place.root_ne_behind here
      · intro node equal
        cases equal
      · intro node member
        apply same (.link node)
        · apply Place.link_ne_behind
          exact fun inside => here (holds.apart member (inFront _ inside))
        · intro node' equal
          cases equal
          exact held member
  · intro root'
    by_cases here : root' = root
    · rw [here, Function.update_self]
      exact distinct
    · rw [Function.update_of_ne here]
      exact holds.distinct root'
  · intro root₁ root₂ node first second
    by_cases here : root₁ = root
    · by_cases there : root₂ = root
      · exact here.trans there.symm
      · rw [here, Function.update_self] at first
        rw [Function.update_of_ne there] at second
        exact absurd first (stays there second)
    · rw [Function.update_of_ne here] at first
      by_cases there : root₂ = root
      · rw [there, Function.update_self] at second
        exact absurd second (stays here first)
      · rw [Function.update_of_ne there] at second
        exact holds.apart first second

variable [DecidableEq Node]

def set (links : Links Root Node) : Place Root Node → Option Node → Links Root Node
  | .root root, value => { links with first := Function.update links.first root value }
  | .link node, value => { links with next := Function.update links.next node value }

@[simp] theorem get_set_self (value : Option Node) : (links.set place value).get place = value := by
  cases place with
  | root root => exact Function.update_self _ _ _
  | link node => exact Function.update_self _ _ _

theorem get_set_of_ne {place' : Place Root Node} (other : place' ≠ place) (value : Option Node) :
    (links.set place value).get place' = links.get place' := by
  cases place with
  | root root =>
      cases place' with
      | root root' => exact Function.update_of_ne (fun same => other (congrArg _ same)) _ _
      | link node' => rfl
  | link node =>
      cases place' with
      | root root' => rfl
      | link node' => exact Function.update_of_ne (fun same => other (congrArg _ same)) _ _

namespace Holds

theorem unlink (holds : links.Holds lists) (root : Root) (split : lists root = front ++ node :: back) :
    (links.set ((Place.root root).behind front) (links.next node)).Holds
      (Function.update lists root (front ++ back)) := by
  have distinct := split ▸ holds.distinct root
  have leads := ((split ▸ holds.leads root : links.Leads _ (front ++ node :: back)).behind).2
  have shorter : (front ++ back).Sublist (front ++ node :: back) :=
    (List.sublist_cons_self node back).append_left front
  refine holds.replace root split (fun place elsewhere _ => get_set_of_ne elsewhere _) ?_
    (distinct.sublist shorter) fun node member => .inl (List.mem_cons_of_mem _ member)
  apply leads.congr (get_set_self _)
  intro entry member
  have behindFront : entry ∉ front := fun inside =>
    (List.nodup_append.mp distinct).2.2 _ inside _ (List.mem_cons_of_mem _ member) rfl
  exact get_set_of_ne (Place.link_ne_behind behindFront) _

theorem setFree (holds : links.Holds lists) (free : Free lists node) (value : Option Node) :
    (links.set (.link node) value).Holds lists where
  leads root' := by
    have start : (links.set (.link node) value).get (.root root') = links.get (.root root') := rfl
    apply (holds.leads root').congr start
    intro entry member
    apply Function.update_of_ne
    rintro rfl
    exact free root' member
  distinct := holds.distinct
  apart := holds.apart

theorem link (holds : links.Holds lists) (root : Root) (split : lists root = front ++ back)
    (free : Free lists node) :
    ((links.set (.link node) (links.get ((Place.root root).behind front))).set
      ((Place.root root).behind front) (some node)).Holds
        (Function.update lists root (front ++ node :: back)) := by
  have absent : node ∉ front ++ back := split ▸ free root
  have apart : Place.link node ≠ (Place.root root).behind front :=
    Place.link_ne_behind fun inside => absent (List.mem_append_left _ inside)
  have distinct : (front ++ node :: back).Nodup := by
    rw [List.nodup_middle]
    exact List.nodup_cons.mpr ⟨absent, split ▸ holds.distinct root⟩
  have leads : links.Leads ((Place.root root).behind front) back :=
    (split ▸ holds.leads root : links.Leads _ (front ++ back)).behind
  refine holds.replace root split ?_ ⟨get_set_self _, ?_⟩ distinct ?_
  · intro place elsewhere used
    rw [get_set_of_ne elsewhere, get_set_of_ne]
    rintro rfl
    exact used node rfl free
  · refine leads.congr ?_ ?_
    · rw [get_set_of_ne apart, get_set_self]
    · intro entry member
      have notEntry : (Place.link entry : Place Root Node) ≠ Place.link node := by
        intro equal
        cases equal
        exact absent (List.mem_append_right _ member)
      have behindFront : entry ∉ front := fun inside =>
        (List.nodup_append.mp (split ▸ holds.distinct root)).2.2 _ inside _ member rfl
      exact (get_set_of_ne (Place.link_ne_behind behindFront) _).trans
        (get_set_of_ne notEntry _)
  · intro entry member
    rcases List.mem_cons.mp member with rfl | old
    · exact .inr free
    · exact .inl old

theorem append (holds : links.Holds lists) (root : Root) (free : Free lists node) :
    ((links.set ((Place.root root).behind (lists root)) (some node)).set (.link node) none).Holds
      (Function.update lists root (lists root ++ [node])) := by
  have apart : (Place.root root).behind (lists root) ≠ Place.link node :=
    (Place.link_ne_behind (free root)).symm
  have split : lists root = lists root ++ [] := (List.append_nil _).symm
  refine holds.replace root split ?_ ⟨?_, get_set_self _⟩ ?_ ?_
  · intro place elsewhere used
    rw [get_set_of_ne, get_set_of_ne elsewhere]
    rintro rfl
    exact used node rfl free
  · rw [get_set_of_ne apart, get_set_self]
  · apply List.Nodup.append (holds.distinct root) (List.nodup_singleton node)
    intro entry member same
    rw [List.mem_singleton.mp same] at member
    exact free root member
  · intro entry member
    rw [List.mem_singleton.mp member]
    exact .inr free

end Holds

end

end Links

end LaTTe.Data
