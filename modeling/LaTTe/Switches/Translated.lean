import LaTTe.Switches.Traversal

namespace LaTTe.Switches

/-! What the traversal keeps. -/

variable {F : Type} {m : Method F}

namespace Traversal

variable (t : Traversal F)

def pending (n : Nat) : List Nat :=
  ((t.current.toList ++ t.traverseStack).filter (·.1 = n)).map (·.2)

structure Installed (pending : Nat → List Nat) (block : Block F) (base : Nat) : Prop where
  inside : base + block.nodes.length ≤ t.graph.length
  nodes : ∀ i node, block.nodes[i]? = some node → ∃ done instrs,
    t.graph[base + i]? =
      some ⟨node.instr, node.successors.map (base + ·) ++ instrs⟩ ∧
    List.Forall₂ (fun npc instr => t.translatedInstrs npc = some instr) done instrs ∧
    done ++ pending (base + i) = block.targets i

structure Sound (m : Method F) (t : Traversal F) (pending : Nat → List Nat) : Prop where
  blocks : ∀ pc base, t.translatedInstrs pc = some base →
    ∃ block, m.block pc = some block ∧ t.Installed pending block base
  apart : ∀ pc pc' base base' block, t.translatedInstrs pc = some base →
    t.translatedInstrs pc' = some base' → m.block pc = some block → pc ≠ pc' →
      base' < base ∨ base + block.nodes.length ≤ base'
  parents : ∀ entry ∈ t.current.toList ++ t.traverseStack, entry.1 < t.graph.length

theorem Installed.weaken {t t' : Traversal F} {pending pending' : Nat → List Nat}
    {block : Block F} {base parent pc instr : Nat} (installed : t.Installed pending block base)
    (longer : t.graph.length ≤ t'.graph.length)
    (graph : ∀ n < t.graph.length, t'.graph[n]? =
      if n = parent then t.graph[n]?.map (·.addSucc instr) else t.graph[n]?)
    (translated : ∀ npc instr, t.translatedInstrs npc = some instr →
      t'.translatedInstrs npc = some instr)
    (new : t'.translatedInstrs pc = some instr)
    (popped : ∀ n < t.graph.length,
      pending n = (if n = parent then [pc] else []) ++ pending' n) :
    t'.Installed pending' block base where
  inside := Nat.le_trans installed.inside longer
  nodes i node found := by
    obtain ⟨done, instrs, stands, finished, rest⟩ := installed.nodes i node found
    have inside := installed.inside
    have bound := (List.getElem?_eq_some_iff.mp found).1
    have below : base + i < t.graph.length := by omega
    have finished' : List.Forall₂ (fun npc instr => t'.translatedInstrs npc = some instr)
        done instrs := finished.imp fun npc instr => translated npc instr
    rw [graph _ below, stands]
    rw [popped _ below] at rest
    by_cases asked : base + i = parent
    · refine ⟨done ++ [pc], instrs ++ [instr], ?_, ?_, ?_⟩
      · rw [if_pos asked]
        simp [InstrNode.addSucc]
      · exact List.rel_append finished' (.cons new .nil)
      · rw [if_pos asked] at rest
        rw [List.append_assoc, rest]
    · refine ⟨done, instrs, ?_, finished', ?_⟩
      · rw [if_neg asked]
      · rwa [if_neg asked] at rest

variable {t}

theorem getElem?_install (graph : Graph F) (parent : Nat) (block : Block F) {n : Nat}
    (below : n < graph.length) :
    (install graph parent block)[n]? =
      if n = parent then graph[n]?.map (·.addSucc graph.length) else graph[n]? := by
  rw [install, getElem?_connect, List.getElem?_append_left below]

theorem getElem?_install_new (graph : Graph F) {parent : Nat} (inside : parent < graph.length)
    (block : Block F) {i : Nat} {node : InstrNode F} (found : block.nodes[i]? = some node) :
    (install graph parent block)[graph.length + i]? = some (node.shift graph.length) := by
  have other : graph.length + i ≠ parent := by omega
  rw [install, getElem?_connect, if_neg other, List.getElem?_append_right (Nat.le_add_right _ _),
    Nat.add_sub_cancel_left, List.getElem?_map, found]
  rfl

theorem length_install (graph : Graph F) (parent : Nat) (block : Block F) :
    (install graph parent block).length = graph.length + block.nodes.length := by
  rw [install, length_connect, List.length_append, List.length_map]

theorem sound_connect {pending : Nat → List Nat} {parent pc instr : Nat}
    (sound : Sound m t pending) (known : t.translatedInstrs pc = some instr)
    (popped : ∀ n, pending n = (if n = parent then [pc] else []) ++ t.pending n) :
    Sound m { t with graph := connect t.graph parent instr } t.pending where
  blocks pc' base translated := by
    obtain ⟨block, code, installed⟩ := sound.blocks pc' base translated
    refine ⟨block, code, installed.weaken (Nat.le_of_eq (length_connect ..).symm)
      (fun n _ => getElem?_connect ..) (fun _ _ same => same) known fun n _ => popped n⟩
  apart := sound.apart
  parents entry mem := by
    rw [length_connect]
    exact sound.parents entry mem

theorem pending_relocate (block : Block F) {stack : List (Nat × Nat)} {base : Nat}
    (old : ∀ entry ∈ stack, entry.1 < base) (i : Nat) :
    ((((block.next.map (relocate base)).toList ++
      ((block.pushes.map (relocate base)).reverse ++ stack)).filter (·.1 = base + i)).map (·.2)) =
      block.targets i := by
  have none : stack.filter (·.1 = base + i) = [] := by
    rw [List.filter_eq_nil_iff]
    intro entry mem
    have := old entry mem
    simp
    omega
  have moved : ∀ pushes : List (Nat × Nat),
      ((pushes.map (relocate base)).filter (·.1 = base + i)).map (·.2) =
        (pushes.filter (·.1 = i)).map (·.2) := by
    intro pushes
    simp [List.filter_map, Function.comp_def, relocate]
  have option : (block.next.map (relocate base)).toList = block.next.toList.map (relocate base) := by
    cases block.next <;> rfl
  rw [Block.targets, ← List.append_assoc, List.filter_append, none, List.append_nil, option,
    ← List.map_reverse, ← List.map_append, moved]

theorem translateBytecode_eq {t' : Traversal F} {parent pc : Nat}
    (run : t.translateBytecode m parent pc = some t') :
    ∃ block, m.block pc = some block ∧ t'.graph = install t.graph parent block ∧
      (∀ pc', t'.translatedInstrs pc' =
        if pc' = pc then some t.graph.length else t.translatedInstrs pc') ∧
      t'.current.toList ++ t'.traverseStack = (block.next.map (relocate t.graph.length)).toList ++
        ((block.pushes.map (relocate t.graph.length)).reverse ++ t.traverseStack) := by
  obtain ⟨block, code, run⟩ := Option.bind_eq_some_iff.mp run
  obtain ⟨stack, pushed, run⟩ := Option.bind_eq_some_iff.mp run
  rw [pushAll_eq (room_of_pushAll pushed)] at pushed
  cases pushed
  cases run
  exact ⟨block, code, rfl, fun _ => Function.update_apply .., rfl⟩

theorem Sound.below {pending : Nat → List Nat} (sound : Sound m t pending) {pc base : Nat}
    (translated : t.translatedInstrs pc = some base) : base < t.graph.length := by
  obtain ⟨block, _, installed⟩ := sound.blocks pc base translated
  exact Nat.lt_of_lt_of_le (Nat.lt_add_of_pos_right block.some) installed.inside

/-- A new bytecode gets its code behind that of all others. -/
theorem sound_translateBytecode {t' : Traversal F} {pending : Nat → List Nat} {parent pc : Nat}
    (sound : Sound m t pending) (inside : parent < t.graph.length)
    (loaded : t.current = none)
    (popped : ∀ n, pending n = (if n = parent then [pc] else []) ++ t.pending n)
    (new : t.translatedInstrs pc = none) (run : t.translateBytecode m parent pc = some t') :
    Sound m t' t'.pending := by
  obtain ⟨block, code, graph, table, entries⟩ := translateBytecode_eq run
  have old : ∀ entry ∈ t.traverseStack, entry.1 < t.graph.length := fun entry mem =>
    sound.parents entry (List.mem_append_right _ mem)
  have longer : t'.graph.length = t.graph.length + block.nodes.length := by
    rw [graph, length_install]
  have known : ∀ npc instr, t.translatedInstrs npc = some instr →
      t'.translatedInstrs npc = some instr := by
    intro npc instr translated
    have other : npc ≠ pc := by
      rintro rfl
      rw [new] at translated
      contradiction
    rw [table, if_neg other, translated]
  constructor
  · intro pc' base translated
    rw [table] at translated
    by_cases same : pc' = pc
    · rw [if_pos same] at translated
      cases translated
      refine ⟨block, same ▸ code, Nat.le_of_eq longer.symm, fun i node found =>
        ⟨[], [], ?_, .nil, ?_⟩⟩
      · rw [graph, List.append_nil]
        exact getElem?_install_new t.graph inside block found
      · rw [Traversal.pending, entries]
        exact pending_relocate block old i
    · rw [if_neg same] at translated
      obtain ⟨block', code', installed⟩ := sound.blocks pc' base translated
      have here : t'.translatedInstrs pc = some t.graph.length := by rw [table, if_pos rfl]
      refine ⟨block', code', installed.weaken (by omega)
        (fun n below => graph ▸ getElem?_install t.graph parent block below) known here ?_⟩
      intro n below
      have bound : ∀ push : Nat × Nat, t.graph.length + push.1 ≠ n := fun push => by omega
      rw [popped n, Traversal.pending, Traversal.pending, loaded, entries]
      cases block.next <;> simp [relocate, List.filter_map, Function.comp_def, bound]
  · intro pc₁ pc₂ base₁ base₂ block' one other code' differ
    rw [table] at one other
    by_cases first : pc₁ = pc
    · rw [if_pos first] at one
      rw [if_neg fun second => differ (first.trans second.symm)] at other
      cases one
      exact .inl (sound.below other)
    · rw [if_neg first] at one
      by_cases second : pc₂ = pc
      · rw [if_pos second] at other
        cases other
        obtain ⟨block₀, code₀, installed⟩ := sound.blocks _ _ one
        cases Option.some.inj (code₀.symm.trans code')
        exact .inr installed.inside
      · rw [if_neg second] at other
        exact sound.apart _ _ _ _ _ one other code' differ
  · intro entry mem
    rw [entries] at mem
    rw [longer]
    rcases List.mem_append.mp mem with next | stack
    · obtain ⟨push, isNext, rfl⟩ := Option.mem_map.mp (Option.mem_toList.mp next)
      exact Nat.add_lt_add_left (block.last push isNext) _
    · rcases List.mem_append.mp stack with pushed | rest
      · obtain ⟨push, isPush, rfl⟩ := List.mem_map.mp (List.mem_reverse.mp pushed)
        exact Nat.add_lt_add_left (block.parents push isPush) _
      · exact Nat.lt_of_lt_of_le (old entry rest) (Nat.le_add_right _ _)

theorem pop_eq {entry : Nat × Nat} {rest : Traversal F} (popped : t.pop = some (entry, rest)) :
    t.current.toList ++ t.traverseStack = entry :: rest.traverseStack ∧ rest.current = none ∧
      rest.graph = t.graph ∧ rest.translatedInstrs = t.translatedInstrs := by
  unfold pop at popped
  split at popped
  · rename_i loaded
    cases popped
    exact ⟨by rw [loaded]; rfl, rfl, rfl, rfl⟩
  · rename_i loaded
    split at popped
    · contradiction
    · rename_i stack
      cases popped
      exact ⟨by rw [loaded, stack]; rfl, loaded, rfl, rfl⟩

theorem sound_round {t' : Traversal F} (sound : Sound m t t.pending)
    (run : t.round m = some t') : Sound m t' t'.pending := by
  obtain ⟨⟨entry, rest⟩, popped, run⟩ := Option.bind_eq_some_iff.mp run
  obtain ⟨list, loaded, graph, translated⟩ := pop_eq popped
  have pending : ∀ n, t.pending n =
      (if n = entry.1 then [entry.2] else []) ++ rest.pending n := by
    intro n
    rw [Traversal.pending, Traversal.pending, list, loaded]
    by_cases same : n = entry.1
    · simp [same]
    · simp [same, Ne.symm same]
  have sound' : Sound m rest t.pending := by
    constructor
    · intro pc base known
      rw [translated] at known
      obtain ⟨block, code, installed⟩ := sound.blocks pc base known
      refine ⟨block, code, ?_, ?_⟩
      · rw [graph]
        exact installed.inside
      · rw [graph, translated]
        exact installed.nodes
    · rw [translated]
      exact sound.apart
    · intro entry' mem
      rw [graph]
      rw [loaded] at mem
      exact sound.parents entry' (list ▸ List.mem_cons_of_mem _ mem)
  have inside : entry.1 < rest.graph.length := by
    rw [graph]
    exact sound.parents entry (list ▸ List.mem_cons_self)
  simp only [visit] at run
  split at run
  · rename_i instr known
    cases run
    exact sound_connect sound' known pending
  · rename_i new
    exact sound_translateBytecode sound' inside loaded pending new run

theorem sound_start (m : Method F) : Sound m (start m) (start m).pending where
  blocks := nofun
  apart := nofun
  parents entry mem := by
    cases List.mem_singleton.mp mem
    exact m.inside

theorem Reached.sound (reached : Reached m t) : Sound m t t.pending := by
  induction reached with
  | refl => exact sound_start m
  | tail _ taken ih => exact sound_round ih taken

/-! The traversal ends when every round is careful. -/

theorem Reached.pcs (reached : Reached m t) :
    ∀ entry ∈ t.current.toList ++ t.traverseStack, entry.2 < m.length := by
  induction reached with
  | refl =>
      intro entry mem
      cases List.mem_singleton.mp mem
      exact m.start
  | tail _ taken ih =>
      obtain ⟨⟨entry, rest⟩, popped, run⟩ := Option.bind_eq_some_iff.mp taken
      obtain ⟨list, loaded, _, _⟩ := pop_eq popped
      have bound : entry.2 < m.length := ih entry (list ▸ List.mem_cons_self)
      have others : ∀ entry' ∈ rest.traverseStack, entry'.2 < m.length := fun entry' mem =>
        ih entry' (list ▸ List.mem_cons_of_mem _ mem)
      simp only [visit] at run
      split at run
      · cases run
        intro entry' mem
        simp only [loaded] at mem
        exact others entry' mem
      · obtain ⟨block, code, _, _, entries⟩ := translateBytecode_eq run
        have closed : ∀ push ∈ block.next.toList ++ block.pushes.reverse, push.2 < m.length := by
          intro push mem
          refine m.closed entry.2 bound block code push.1 push.2 ?_
          exact List.mem_map.mpr ⟨push, List.mem_filter.mpr ⟨mem, by simp⟩, rfl⟩
        intro entry' mem
        rw [entries] at mem
        rcases List.mem_append.mp mem with next | stack
        · obtain ⟨push, isNext, rfl⟩ := Option.mem_map.mp (Option.mem_toList.mp next)
          exact closed push (List.mem_append_left _ (Option.mem_toList.mpr isNext))
        · rcases List.mem_append.mp stack with pushed | old
          · obtain ⟨push, isPush, rfl⟩ := List.mem_map.mp (List.mem_reverse.mp pushed)
            exact closed push (List.mem_append_right _ (List.mem_reverse.mpr isPush))
          · exact others entry' old

theorem round_of_careful (careful : Careful m t) {entry : Nat × Nat} {rest : Traversal F}
    (popped : t.pop = some (entry, rest)) : ∃ t', t.round m = some t' := by
  rw [Traversal.round, popped]
  simp only [Option.bind_eq_bind, Option.bind_some, visit]
  cases known : rest.translatedInstrs entry.2 with
  | some instr => exact ⟨_, rfl⟩
  | none =>
      obtain ⟨block, code, room⟩ := careful entry rest popped known
      have pushed : pushAll (block.pushes.map (relocate rest.graph.length)) rest.traverseStack =
          some _ := pushAll_eq (by simpa using room)
      simp [translateBytecode, code, pushed]

theorem careful_of_round {t' : Traversal F} (run : t.round m = some t') : Careful m t := by
  intro entry rest popped new
  rw [Traversal.round, popped] at run
  simp only [Option.bind_eq_bind, Option.bind_some, visit, new] at run
  obtain ⟨block, code, run⟩ := Option.bind_eq_some_iff.mp run
  obtain ⟨stack, pushed, _⟩ := Option.bind_eq_some_iff.mp run
  exact ⟨block, code, by simpa using room_of_pushAll pushed⟩

def measure (m : Method F) (t : Traversal F) : Nat :=
  ((Finset.range m.length).filter fun pc => t.translatedInstrs pc = none).card *
    (maxStackSize + 2) + (t.current.toList ++ t.traverseStack).length

theorem measure_round {t' : Traversal F} (reached : Reached m t) (run : t.round m = some t') :
    measure m t' < measure m t := by
  obtain ⟨⟨entry, rest⟩, popped, run⟩ := Option.bind_eq_some_iff.mp run
  obtain ⟨list, loaded, graph, translated⟩ := pop_eq popped
  have bound : entry.2 < m.length := reached.pcs entry (list ▸ List.mem_cons_self)
  simp only [visit] at run
  split at run
  · cases run
    simp [measure, list, loaded, translated]
  · rename_i new
    have room : ∀ block, m.block entry.2 = some block → block.pushes = [] ∨
        rest.traverseStack.length + block.pushes.length ≤ maxStackSize := by
      intro block code
      obtain ⟨block', code', run⟩ := Option.bind_eq_some_iff.mp run
      cases Option.some.inj (code.symm.trans code')
      obtain ⟨stack, pushed, _⟩ := Option.bind_eq_some_iff.mp run
      simpa using room_of_pushAll pushed
    obtain ⟨block, code, _, table, entries⟩ := translateBytecode_eq run
    have fewer : ((Finset.range m.length).filter fun pc => t'.translatedInstrs pc = none).card <
        ((Finset.range m.length).filter fun pc => t.translatedInstrs pc = none).card := by
      apply Finset.card_lt_card
      rw [Finset.ssubset_iff_of_subset]
      · refine ⟨entry.2, ?_, ?_⟩
        · rw [translated] at new
          simp [bound, new]
        · simp [table]
      · intro pc mem
        rw [Finset.mem_filter] at mem ⊢
        refine ⟨mem.1, ?_⟩
        rw [table] at mem
        split at mem
        · exact absurd mem.2 nofun
        · rw [← translated]
          exact mem.2
    have next : (block.next.map (relocate rest.graph.length)).toList.length ≤ 1 := by
      cases block.next <;> simp
    have most : (t'.current.toList ++ t'.traverseStack).length ≤
        (t.current.toList ++ t.traverseStack).length + (maxStackSize + 1) := by
      rw [entries, list]
      simp only [List.length_append, List.length_reverse, List.length_map, List.length_cons]
      rcases room block code with none | some
      · simp only [none, List.length_nil]
        omega
      · omega
    have := Nat.mul_le_mul_right (maxStackSize + 2) fewer
    rw [Nat.succ_mul] at this
    unfold measure
    omega

theorem finishes {t : Traversal F} (careful : ∀ t, Reached m t → Careful m t)
    (reached : Reached m t) : ∃ last, Finished m last := by
  induction size : measure m t using Nat.strong_induction_on generalizing t with
  | _ size ih =>
      cases popped : t.pop with
      | none => exact ⟨t, reached, popped⟩
      | some next =>
          obtain ⟨t', run⟩ := round_of_careful (careful t reached) popped
          exact ih (measure m t') (size ▸ measure_round reached run) (reached.tail run) rfl

theorem finishes_iff (m : Method F) :
    (∃ t, Finished m t) ↔ ∀ t, Reached m t → Careful m t := by
  constructor
  · rintro ⟨last, ended, stopped⟩ t reached
    have functional : Relator.RightUnique fun before after : Traversal F =>
        round m before = some after :=
      fun _ _ _ taken taken' => Option.some.inj (taken.symm.trans taken')
    have careful : t = last ∨ (∃ next, round m t = some next) → Careful m t := by
      rintro (rfl | ⟨next, run⟩)
      · intro entry rest popped
        rw [stopped] at popped
        contradiction
      · exact careful_of_round run
    apply careful
    rcases Relation.ReflTransGen.total_of_right_unique functional reached ended with on | on
    · rcases Relation.ReflTransGen.cases_head on with same | ⟨next, taken, _⟩
      · exact .inl same
      · exact .inr ⟨next, taken⟩
    · rcases Relation.ReflTransGen.cases_head on with same | ⟨next, taken, _⟩
      · exact .inl same.symm
      · obtain ⟨_, popped, _⟩ := Option.bind_eq_some_iff.mp taken
        rw [stopped] at popped
        contradiction
  · intro careful
    exact finishes careful Relation.ReflTransGen.refl

/-! The code of a method. -/

def entry (t : Traversal F) (pc : Nat) : Nat := (t.translatedInstrs pc).getD 0

def IsEntry (t : Traversal F) (node : Nat) : Prop :=
  ∃ pc, t.translatedInstrs pc = some node

section Ended

variable {e : Emission F} {sane : Sane e} {pc base : Nat}

theorem Finished.pending (finished : Finished m t) (n : Nat) : t.pending n = [] := by
  have none := finished.2
  unfold pop at none
  split at none
  · contradiction
  · rename_i loaded
    split at none
    · rename_i empty
      simp [Traversal.pending, loaded, empty]
    · contradiction

/-- At the end, a node has as its successors the code of the bytecodes that it has asked for. -/
theorem Finished.installed (finished : Finished m t)
    (translated : t.translatedInstrs pc = some base) (code : m.block pc = some (e.block sane)) :
    Placed t.graph e base t.entry 0 ∧
      ∀ n, ∀ npc ∈ e.targets n, t.translatedInstrs npc = some (t.entry npc) := by
  obtain ⟨block, code', installed⟩ := finished.1.sound.blocks pc base translated
  cases Option.some.inj (code.symm.trans code')
  have each : ∀ n node, e.nodes[n]? = some node →
      t.graph[base + n]? =
        some ⟨node.instr, node.successors.map (base + ·) ++ (e.targets n).map t.entry⟩ ∧
      ∀ npc ∈ e.targets n, t.translatedInstrs npc = some (t.entry npc) := by
    intro n node found
    obtain ⟨done, instrs, stands, all, rest⟩ := installed.nodes n node found
    rw [finished.pending, List.append_nil, Emission.targets_block] at rest
    subst rest
    have known : ∀ npcs nodes, List.Forall₂ (fun npc instr => t.translatedInstrs npc = some instr)
        npcs nodes → nodes = npcs.map t.entry ∧
          ∀ npc ∈ npcs, t.translatedInstrs npc = some (t.entry npc) := by
      intro npcs nodes all
      induction all with
      | nil => exact ⟨rfl, nofun⟩
      | cons first _ ih =>
          have same : t.entry _ = _ := congrArg (Option.getD · 0) first
          refine ⟨by rw [ih.1, List.map_cons, same]; rfl, ?_⟩
          intro npc mem
          rcases List.mem_cons.mp mem with rfl | later
          · rw [same, first]
            rfl
          · exact ih.2 npc later
    rw [← (known _ _ all).1]
    exact ⟨stands, (known _ _ all).2⟩
  refine ⟨fun n node _ found => (each n node found).1, fun n npc mem => ?_⟩
  rcases Nat.lt_or_ge n e.size with below | above
  · exact (each n _ (List.getElem?_eq_getElem below)).2 npc mem
  · rw [sane.targets above] at mem
    contradiction

theorem Finished.not_entry (finished : Finished m t)
    (translated : t.translatedInstrs pc = some base) (code : m.block pc = some (e.block sane))
    {n : Nat} (positive : 0 < n) (below : n < e.size) : ¬ t.IsEntry (base + n) := by
  rintro ⟨pc', other⟩
  by_cases same : pc = pc'
  · subst same
    have := Option.some.inj (translated.symm.trans other)
    omega
  · have apart := finished.1.sound.apart pc pc' base (base + n) _ translated other code same
    have size : (e.block sane).nodes.length = e.size := rfl
    omega

end Ended

end Traversal

end LaTTe.Switches
