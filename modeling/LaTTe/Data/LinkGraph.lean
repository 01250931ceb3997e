import Mathlib.Logic.Function.Iterate
import Mathlib.Data.List.Basic

namespace LaTTe.Data

universe u

variable {α : Type u} [DecidableEq α]

/-! Directed graphs whose nodes keep the lists of their successors and of their
predecessors.  An edge may be there more than once. -/

@[ext]
structure LinkGraph (α : Type u) where
  succs : α → List α
  preds : α → List α

def replaceFirst (lists : α → List α) (key old new : α) : α → List α :=
  Function.update lists key ((lists key).replace old new)

def redirect (old new : α) (items : List α) : List α :=
  items.map fun item => if item = old then new else item

theorem replace_cons_of_ne {first old : α} (differs : first ≠ old) (rest : List α) (new : α) :
    (first :: rest).replace old new = first :: rest.replace old new := by
  have different : (old == first) = false := by simpa using Ne.symm differs
  rw [List.replace_cons, different]

theorem count_replace {items : List α} {old new : α} (item : α) (member : old ∈ items) :
    (items.replace old new).count item + (if old == item then 1 else 0) =
      items.count item + (if new == item then 1 else 0) := by
  induction items with
  | nil => contradiction
  | cons first rest ih =>
      by_cases same : first = old
      · subst same
        simp only [List.replace_cons_self, List.count_cons]
        omega
      · have kept := ih ((List.mem_cons.mp member).resolve_left (Ne.symm same))
        simp only [replace_cons_of_ne same, List.count_cons]
        omega

theorem iterate_replace_cons {first old : α} (differs : first ≠ old) (new : α) (n : Nat)
    (rest : List α) :
    (fun list : List α => list.replace old new)^[n] (first :: rest) =
      first :: (fun list : List α => list.replace old new)^[n] rest := by
  induction n generalizing rest with
  | zero => rfl
  | succ n ih =>
      rw [Function.iterate_succ_apply, Function.iterate_succ_apply, replace_cons_of_ne differs, ih]

theorem iterate_replace (items : List α) {old new : α} (fresh : new ≠ old) :
    (fun list : List α => list.replace old new)^[items.count old] items =
      redirect old new items := by
  induction items with
  | nil => rfl
  | cons first rest ih =>
      by_cases same : first = old
      · subst same
        rw [List.count_cons_self, Function.iterate_succ_apply, List.replace_cons_self,
          iterate_replace_cons fresh, ih]
        simp [redirect]
      · rw [List.count_cons_of_ne same, iterate_replace_cons same, ih]
        simp [redirect, same]

theorem not_mem_redirect (items : List α) {old new : α} (fresh : new ≠ old) :
    old ∉ redirect old new items := by
  intro member
  obtain ⟨item, _, moved⟩ := List.mem_map.mp member
  split at moved
  · exact fresh moved
  · rename_i differs
    exact differs moved

theorem count_redirect_new (items : List α) {old new : α} (fresh : new ≠ old) :
    (redirect old new items).count new = items.count new + items.count old := by
  induction items with
  | nil => rfl
  | cons first rest ih =>
      simp only [redirect, List.map_cons, List.count_cons] at ih ⊢
      rw [ih]
      by_cases same : first = old
      · simp [same, Ne.symm fresh]
        omega
      · simp [same]
        omega

theorem count_redirect_of_ne (items : List α) {old new item : α} (notOld : item ≠ old)
    (notNew : item ≠ new) : (redirect old new items).count item = items.count item := by
  induction items with
  | nil => rfl
  | cons first rest ih =>
      simp only [redirect, List.map_cons, List.count_cons] at ih ⊢
      rw [ih]
      by_cases same : first = old
      · simp [same, Ne.symm notOld, Ne.symm notNew]
      · simp [same]

namespace LinkGraph

variable (g : LinkGraph α)

def connect (pred succ : α) : LinkGraph α where
  succs := Function.update g.succs pred (g.succs pred ++ [succ])
  preds := Function.update g.preds succ (g.preds succ ++ [pred])

def disconnect (pred succ : α) : LinkGraph α where
  succs := Function.update g.succs pred ((g.succs pred).erase succ)
  preds := Function.update g.preds succ ((g.preds succ).erase pred)

theorem succs_connect (pred succ p : α) :
    (g.connect pred succ).succs p =
      if p = pred then g.succs pred ++ [succ] else g.succs p :=
  Function.update_apply ..

theorem succs_disconnect (pred succ p : α) :
    (g.disconnect pred succ).succs p =
      if p = pred then (g.succs pred).erase succ else g.succs p :=
  Function.update_apply ..

def pass (node succ : α) (g : LinkGraph α) (pred : α) : LinkGraph α where
  succs := replaceFirst g.succs pred node succ
  preds := Function.update g.preds succ (g.preds succ ++ [pred])

def bypass (node : α) : LinkGraph α :=
  let succ := (g.succs node).headD node
  match g.preds node with
  | [] => g
  | pred :: others =>
      let first : LinkGraph α :=
        ⟨replaceFirst g.succs pred node succ, replaceFirst g.preds succ node pred⟩
      let all := others.foldl (pass node succ) first
      ⟨Function.update all.succs node [], Function.update all.preds node []⟩

def Mirrored : Prop :=
  ∀ pred succ, (g.succs pred).count succ = (g.preds succ).count pred

variable {g}

theorem Mirrored.mem_iff (mirrored : g.Mirrored) {pred succ : α} :
    succ ∈ g.succs pred ↔ pred ∈ g.preds succ := by
  rw [← List.count_pos_iff, ← List.count_pos_iff, mirrored]

theorem Mirrored.connect (mirrored : g.Mirrored) (pred succ : α) :
    (g.connect pred succ).Mirrored := by
  intro p s
  have kept := mirrored p s
  simp only [LinkGraph.connect, Function.update_apply]
  by_cases atPred : p = pred <;> by_cases atSucc : s = succ
  · subst atPred atSucc
    simp [kept]
  · subst atPred
    simp [atSucc, Ne.symm atSucc, kept]
  · subst atSucc
    simp [atPred, Ne.symm atPred, kept]
  · simp [atPred, atSucc, kept]

theorem Mirrored.disconnect (mirrored : g.Mirrored) (pred succ : α) :
    (g.disconnect pred succ).Mirrored := by
  intro p s
  have kept := mirrored p s
  simp only [LinkGraph.disconnect, Function.update_apply]
  by_cases atPred : p = pred <;> by_cases atSucc : s = succ
  · subst atPred atSucc
    simp [kept]
  · subst atPred
    simp [atSucc, List.count_erase_of_ne, kept]
  · subst atSucc
    simp [atPred, List.count_erase_of_ne, kept]
  · simp [atPred, atSucc, kept]

section

variable (node succ : α)

theorem succs_foldl_pass (others : List α) (g : LinkGraph α) (p : α) :
    (others.foldl (pass node succ) g).succs p =
      (fun list : List α => list.replace node succ)^[others.count p] (g.succs p) := by
  induction others generalizing g with
  | nil => rfl
  | cons pred others ih =>
      rw [List.foldl_cons, ih]
      by_cases same : pred = p
      · subst same
        rw [List.count_cons_self, Function.iterate_succ_apply]
        simp [pass, replaceFirst]
      · rw [List.count_cons_of_ne same]
        simp [pass, replaceFirst, Function.update_of_ne (Ne.symm same)]

theorem preds_foldl_pass (others : List α) (g : LinkGraph α) :
    (others.foldl (pass node succ) g).preds =
      Function.update g.preds succ (g.preds succ ++ others) := by
  induction others generalizing g with
  | nil => simp
  | cons pred others ih =>
      rw [List.foldl_cons, ih]
      simp [pass]

end

structure Bypassed (g : LinkGraph α) (node succ : α) (after : LinkGraph α) : Prop where
  succs : ∀ p, p ≠ node → after.succs p = redirect node succ (g.succs p)
  subset : after.succs node ⊆ g.succs node
  mirrored : after.Mirrored

theorem bypassed_of_preds_eq_nil {node : α} (mirrored : g.Mirrored) (succ : α)
    (unused : g.preds node = []) : g.Bypassed node succ (g.bypass node) := by
  have bypass : g.bypass node = g := by
    simp only [LinkGraph.bypass, unused]
  rw [bypass]
  refine ⟨fun p _ => ?_, List.Subset.refl _, mirrored⟩
  have absent : node ∉ g.succs p := by
    rw [mirrored.mem_iff, unused]
    exact List.not_mem_nil
  rw [redirect, List.map_congr_left (g := id), List.map_id]
  intro item member
  rw [if_neg]
  · rfl
  · rintro rfl
    exact absent member

theorem bypassed_of_preds_ne_nil {node succ : α} (mirrored : g.Mirrored)
    (only : g.succs node = [succ]) (moves : succ ≠ node) (entered : g.preds node ≠ []) :
    g.Bypassed node succ (g.bypass node) := by
  obtain ⟨pred, others, preds⟩ := List.exists_cons_of_ne_nil entered
  have outside : node ∉ g.preds node := by
    rw [← mirrored.mem_iff, only, List.mem_singleton]
    exact Ne.symm moves
  have bypass : g.bypass node =
      ⟨Function.update (others.foldl (pass node succ)
          ⟨replaceFirst g.succs pred node succ, replaceFirst g.preds succ node pred⟩).succs node [],
        Function.update (others.foldl (pass node succ)
          ⟨replaceFirst g.succs pred node succ, replaceFirst g.preds succ node pred⟩).preds node []⟩ := by
    simp only [LinkGraph.bypass, preds, only, List.headD_cons]
  have succs : ∀ p, (g.bypass node).succs p =
      if p = node then [] else redirect node succ (g.succs p) := by
    intro p
    rw [bypass]
    simp only [Function.update_apply]
    split
    · rfl
    · have folded := succs_foldl_pass node succ (pred :: others)
        ⟨g.succs, Function.update g.preds succ []⟩ p
      rw [List.foldl_cons, ← preds, ← mirrored, iterate_replace _ moves] at folded
      rw [← folded, succs_foldl_pass, succs_foldl_pass]
      rfl
  refine ⟨fun p other => by rw [succs, if_neg other], ?_, fun p s => ?_⟩
  · rw [succs, if_pos rfl]
    exact List.nil_subset _
  have kept := mirrored p s
  have lost := mirrored p node
  rw [succs, bypass]
  simp only [preds_foldl_pass]
  by_cases atNode : s = node
  · subst atNode
    rw [Function.update_self, List.count_nil, List.count_eq_zero]
    split
    · exact List.not_mem_nil
    · exact not_mem_redirect _ moves
  rw [Function.update_of_ne atNode]
  by_cases atSucc : s = succ
  · subst atSucc
    have listed : node ∈ g.preds s := by
      rw [← mirrored.mem_iff, only]
      exact List.mem_singleton_self s
    have replaced : ((g.preds s).replace node pred).count p + (if node == p then 1 else 0) =
        (g.preds s).count p + (if pred == p then 1 else 0) := count_replace p listed
    simp only [replaceFirst, Function.update_self, List.count_append]
    split
    · rename_i same
      subst same
      have once := mirrored p s
      rw [only, List.count_singleton_self] at once
      have absent := List.count_eq_zero.mpr outside
      rw [preds, List.count_cons] at absent
      rw [beq_self_eq_true, if_pos rfl] at replaced
      rw [List.count_nil]
      omega
    · rename_i differs
      have other : (node == p) = false := by simpa using Ne.symm differs
      rw [count_redirect_new _ moves]
      rw [preds, List.count_cons] at lost
      rw [other] at replaced
      simp only [Bool.false_eq_true, if_false] at replaced
      omega
  · simp only [replaceFirst, Function.update_of_ne atSucc]
    split
    · rename_i same
      subst same
      rw [← kept, only, List.count_nil, eq_comm, List.count_eq_zero, List.mem_singleton]
      exact atSucc
    · rw [← kept, count_redirect_of_ne _ atNode atSucc]

theorem bypassed {node succ : α} (mirrored : g.Mirrored) (only : g.succs node = [succ])
    (moves : succ ≠ node) : g.Bypassed node succ (g.bypass node) := by
  cases preds : g.preds node with
  | nil => exact bypassed_of_preds_eq_nil mirrored succ preds
  | cons pred others =>
      refine bypassed_of_preds_ne_nil mirrored only moves ?_
      rw [preds]
      exact List.cons_ne_nil _ _

end LinkGraph
end LaTTe.Data
