import Mathlib.Data.List.Basic

namespace LaTTe.Data

universe u

variable {α : Type u}

/-! Linked lists whose links are functions on pointers.  A list is described by
its nodes in order; a segment also by the pointers that lead into it and out of
it, so that lists are taken apart and put together by appending. -/

/-- `nodes` in order, from the pointer `head` to the pointer `after`. -/
def Chain (next : α → α) : α → List α → α → Prop
  | head, [], after => head = after
  | head, node :: rest, after => head = node ∧ Chain next (next node) rest after

/-- A doubly linked segment: `before` is the node in front of it and `last` the
last one of it, or `before` if it is empty. -/
def Linked (next prev : α → α) : α → α → List α → α → α → Prop
  | before, head, [], last, after => last = before ∧ after = head
  | before, head, node :: rest, last, after =>
      head = node ∧ prev node = before ∧
        Linked next prev node (next node) rest last after

namespace Chain

variable {next other : α → α} {head after : α} {nodes left right : List α}

@[simp] theorem nil_iff : Chain next head [] after ↔ head = after :=
  Iff.rfl

@[simp] theorem cons_iff {node : α} {rest : List α} :
    Chain next head (node :: rest) after ↔
      head = node ∧ Chain next (next node) rest after :=
  Iff.rfl

theorem append_iff :
    Chain next head (left ++ right) after ↔
      ∃ middle, Chain next head left middle ∧ Chain next middle right after := by
  induction left generalizing head with
  | nil => simp
  | cons node rest ih =>
      simp only [List.cons_append, cons_iff, ih]
      constructor
      · rintro ⟨same, middle, before, behind⟩
        exact ⟨middle, ⟨same, before⟩, behind⟩
      · rintro ⟨middle, ⟨same, before⟩, behind⟩
        exact ⟨same, middle, before, behind⟩

theorem congr (chain : Chain next head nodes after)
    (same : ∀ node ∈ nodes, other node = next node) :
    Chain other head nodes after := by
  induction nodes generalizing head with
  | nil => exact chain
  | cons node rest ih =>
      obtain ⟨rfl, behind⟩ := chain
      refine ⟨rfl, ?_⟩
      rw [same head (by simp)]
      exact ih behind (fun entry member => same entry (by simp [member]))

theorem unique {head' : α} (chain : Chain next head nodes after)
    (chain' : Chain other head' nodes after) :
    head = head' ∧ ∀ node ∈ nodes, next node = other node := by
  induction nodes generalizing head head' with
  | nil => exact ⟨chain.trans chain'.symm, by simp⟩
  | cons node rest ih =>
      obtain ⟨rfl, behind⟩ := chain
      obtain ⟨rfl, behind'⟩ := chain'
      obtain ⟨same, links⟩ := ih behind behind'
      refine ⟨rfl, ?_⟩
      intro entry member
      rcases List.mem_cons.mp member with rfl | inRest
      · exact same
      · exact links entry inRest

theorem nodes_unique {nodes' : List α} (chain : Chain next head nodes after)
    (chain' : Chain next head nodes' after) (ends : after ∉ nodes) (ends' : after ∉ nodes') :
    nodes = nodes' := by
  induction nodes generalizing head nodes' with
  | nil =>
      cases nodes' with
      | nil => rfl
      | cons node' rest' =>
          have same : after = node' := chain.symm.trans chain'.1
          exact absurd (same ▸ List.mem_cons_self) ends'
  | cons node rest ih =>
      cases nodes' with
      | nil =>
          have same : after = node := Eq.trans (Eq.symm chain') chain.1
          exact absurd (same ▸ List.mem_cons_self) ends
      | cons node' rest' =>
          obtain ⟨rfl, behind⟩ := chain
          obtain ⟨rfl, behind'⟩ := chain'
          rw [ih behind behind' (fun member => ends (List.mem_cons_of_mem _ member))
            fun member => ends' (List.mem_cons_of_mem _ member)]

theorem nodup (chain : Chain next head nodes after) (ends : after ∉ nodes) : nodes.Nodup := by
  induction nodes generalizing head with
  | nil => exact .nil
  | cons node rest ih =>
      obtain ⟨_, behind⟩ := chain
      have later : after ∉ rest := fun member => ends (List.mem_cons_of_mem _ member)
      refine List.nodup_cons.mpr ⟨fun again => ?_, ih behind later⟩
      obtain ⟨front, back, rfl⟩ := List.append_of_mem again
      obtain ⟨middle, _, closing⟩ := append_iff.mp behind
      have part : Chain next node (node :: back) after := ⟨rfl, closing.2⟩
      have whole : Chain next node (node :: (front ++ node :: back)) after := ⟨rfl, behind⟩
      have few : after ∉ node :: back := by
        intro member
        apply ends
        rcases List.mem_cons.mp member with rfl | inBack
        · exact List.mem_cons_self
        · exact List.mem_cons_of_mem _
            (List.mem_append_right _ (List.mem_cons_of_mem _ inBack))
      have same := part.nodes_unique whole few ends
      have lengths := congrArg List.length same
      simp only [List.length_cons, List.length_append] at lengths
      omega

end Chain

/-- A list that is still growing: the link of its last node `tail` is not yet
written, and there is no first pointer while it is empty. -/
def OpenChain (next : α → α) (head : α) (tail : Option α) (nodes : List α) : Prop :=
  match tail with
  | none => nodes = []
  | some last => ∃ front, nodes = front ++ [last] ∧ Chain next head front last

namespace OpenChain

variable {next next' : α → α} {head head' : α} {tail : Option α} {last : α}
  {nodes nodes' : List α}

theorem single (next : α → α) (node : α) : OpenChain next node (some node) [node] :=
  ⟨[], rfl, rfl⟩

theorem tail_mem (chain : OpenChain next head (some last) nodes) : last ∈ nodes := by
  obtain ⟨front, rfl, _⟩ := chain
  simp

theorem congr (chain : OpenChain next head tail nodes)
    (same : ∀ node ∈ nodes, tail ≠ some node → next' node = next node)
    (distinct : nodes.Nodup) : OpenChain next' head tail nodes := by
  cases tail with
  | none => exact chain
  | some last =>
      obtain ⟨front, rfl, links⟩ := chain
      refine ⟨front, rfl, links.congr ?_⟩
      intro node member
      apply same node (by simp [member])
      intro isLast
      have equal : last = node := Option.some.inj isLast
      have apart := (List.nodup_append.mp distinct).2.2
      exact apart node member last (by simp) equal.symm

theorem append (chain : OpenChain next head (some last) nodes)
    (chain' : OpenChain next head' tail nodes') (nonempty : nodes' ≠ [])
    (distinct : (nodes ++ nodes').Nodup)
    (link : next' last = head')
    (same : ∀ node ∈ nodes ++ nodes', node ≠ last → tail ≠ some node →
      next' node = next node) :
    OpenChain next' head tail (nodes ++ nodes') := by
  cases tail with
  | none => exact absurd chain' nonempty
  | some final =>
      obtain ⟨front, rfl, links⟩ := chain
      obtain ⟨front', rfl, links'⟩ := chain'
      obtain ⟨distinctLeft, distinctRight, apart⟩ := List.nodup_append.mp distinct
      have notLast : ∀ node ∈ front, node ≠ last := by
        rintro node member rfl
        exact (List.nodup_append.mp distinctLeft).2.2 node member node (by simp) rfl
      have notLast' : ∀ node ∈ front', node ≠ last := by
        rintro node member rfl
        exact apart node (by simp) node (by simp [member]) rfl
      have notFinal : ∀ node ∈ front, some final ≠ some node := by
        intro node member isFinal
        exact apart node (by simp [member]) final (by simp) (Option.some.inj isFinal).symm
      have notFinal' : ∀ node ∈ front', some final ≠ some node := by
        intro node member isFinal
        exact (List.nodup_append.mp distinctRight).2.2 node member final (by simp)
          (Option.some.inj isFinal).symm
      refine ⟨front ++ [last] ++ front', by simp, ?_⟩
      rw [List.append_assoc, Chain.append_iff]
      refine ⟨last, links.congr fun node member =>
        same node (by simp [member]) (notLast node member) (notFinal node member),
        rfl, ?_⟩
      rw [link]
      exact links'.congr fun node member =>
        same node (by simp [member]) (notLast' node member) (notFinal' node member)

/-- One more node at the end of a list that may still be empty. -/
theorem push {node : α} (chain : OpenChain next head tail nodes)
    (distinct : nodes.Nodup) (fresh : node ∉ nodes)
    (first : tail = none → head' = node) (kept : tail ≠ none → head' = head)
    (link : ∀ last, tail = some last → next' last = node)
    (same : ∀ node ∈ nodes, tail ≠ some node → next' node = next node) :
    OpenChain next' head' (some node) (nodes ++ [node]) := by
  cases tail with
  | none =>
      have empty : nodes = [] := chain
      rw [first rfl, empty]
      exact .single _ node
  | some last =>
      rw [kept nofun]
      refine chain.append (.single next node) (by simp) ?_ (link last rfl) ?_
      · rw [List.nodup_append]
        refine ⟨distinct, by simp, fun old member new isNew same => fresh ?_⟩
        rwa [← List.mem_singleton.mp isNew, ← same]
      · intro other member notLast notNew
        rcases List.mem_append.mp member with old | new
        · exact same other old fun isLast => notLast (Option.some.inj isLast).symm
        · exact absurd (congrArg some (List.mem_singleton.mp new).symm) notNew

theorem close {null : α} (chain : OpenChain next head (some last) nodes)
    (closed : next last = null) : Chain next head nodes null := by
  obtain ⟨front, rfl, links⟩ := chain
  exact Chain.append_iff.mpr ⟨last, links, rfl, closed⟩

end OpenChain

namespace Linked

variable {next prev next' prev' : α → α} {before head last after : α}
  {nodes left right : List α}

@[simp] theorem nil_iff :
    Linked next prev before head [] last after ↔ last = before ∧ after = head :=
  Iff.rfl

@[simp] theorem cons_iff {node : α} {rest : List α} :
    Linked next prev before head (node :: rest) last after ↔
      head = node ∧ prev node = before ∧
        Linked next prev node (next node) rest last after :=
  Iff.rfl

theorem append_iff :
    Linked next prev before head (left ++ right) last after ↔
      ∃ middle link, Linked next prev before head left middle link ∧
        Linked next prev middle link right last after := by
  induction left generalizing before head with
  | nil => simp
  | cons node rest ih =>
      simp only [List.cons_append, cons_iff, ih]
      constructor
      · rintro ⟨same, back, middle, link, first, second⟩
        exact ⟨middle, link, ⟨same, back, first⟩, second⟩
      · rintro ⟨middle, link, ⟨same, back, first⟩, second⟩
        exact ⟨same, back, middle, link, first, second⟩

theorem congr (linked : Linked next prev before head nodes last after)
    (sameNext : ∀ node ∈ nodes, next' node = next node)
    (samePrev : ∀ node ∈ nodes, prev' node = prev node) :
    Linked next' prev' before head nodes last after := by
  induction nodes generalizing before head with
  | nil => exact linked
  | cons node rest ih =>
      obtain ⟨rfl, back, behind⟩ := linked
      refine ⟨rfl, by rw [samePrev head (by simp), back], ?_⟩
      rw [sameNext head (by simp)]
      exact ih behind (fun entry member => sameNext entry (by simp [member]))
        (fun entry member => samePrev entry (by simp [member]))

theorem last_mem (linked : Linked next prev before head nodes last after) :
    last = before ∧ nodes = [] ∨ last ∈ nodes := by
  induction nodes generalizing before head with
  | nil => exact .inl ⟨linked.1, rfl⟩
  | cons node rest ih =>
      obtain ⟨rfl, _, behind⟩ := linked
      rcases ih behind with ⟨rfl, _⟩ | member
      · exact .inr (by simp)
      · exact .inr (by simp [member])

theorem head_mem (linked : Linked next prev before head nodes last after) :
    head = after ∧ nodes = [] ∨ head ∈ nodes := by
  cases nodes with
  | nil => exact .inl ⟨linked.2.symm, rfl⟩
  | cons node rest => exact .inr (by simp [linked.1])

theorem redirect (link : α)
    (linked : Linked next prev before head nodes last after)
    (distinct : nodes.Nodup)
    (samePrev : ∀ node ∈ nodes, prev' node = prev node)
    (sameNext : ∀ node ∈ nodes, node ≠ last → next' node = next node)
    (redirected : nodes ≠ [] → next' last = link) :
    nodes = [] ∧ last = before ∨
      nodes ≠ [] ∧ Linked next' prev' before head nodes last link := by
  induction nodes generalizing before head with
  | nil => exact .inl ⟨rfl, linked.1⟩
  | cons node rest ih =>
      obtain ⟨rfl, back, behind⟩ := linked
      obtain ⟨fresh, distinct⟩ := List.nodup_cons.mp distinct
      refine .inr ⟨by simp, rfl, by rw [samePrev head (by simp), back], ?_⟩
      rcases ih behind distinct
          (fun entry member => samePrev entry (by simp [member]))
          (fun entry member => sameNext entry (by simp [member]))
          (fun _ => redirected (by simp)) with ⟨rfl, rfl⟩ | ⟨nonempty, kept⟩
      · exact ⟨rfl, (redirected (by simp)).symm⟩
      · have different : head ≠ last := by
          rintro rfl
          rcases behind.last_mem with ⟨_, empty⟩ | member
          · exact nonempty empty
          · exact fresh member
        rw [sameNext head (by simp) different]
        exact kept

theorem rebase {link : α}
    (linked : Linked next prev before head nodes last after)
    (distinct : nodes.Nodup)
    (sameNext : ∀ node ∈ nodes, next' node = next node)
    (samePrev : ∀ node ∈ nodes, node ≠ head → prev' node = prev node)
    (rebased : nodes ≠ [] → prev' head = link) :
    ∃ final, Linked next' prev' link head nodes final after := by
  cases nodes with
  | nil => exact ⟨link, rfl, linked.2⟩
  | cons node rest =>
      obtain ⟨rfl, _, behind⟩ := linked
      obtain ⟨fresh, _⟩ := List.nodup_cons.mp distinct
      refine ⟨last, rfl, rebased (by simp), ?_⟩
      rw [sameNext head (by simp)]
      apply behind.congr (fun entry member => sameNext entry (by simp [member]))
      intro entry member
      apply samePrev entry (by simp [member])
      rintro rfl
      exact fresh member

end Linked

end LaTTe.Data
