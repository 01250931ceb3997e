import LaTTe.Bytecodes.Joins

namespace LaTTe.Bytecodes

open LaTTe.Data

namespace Method

def DistinctRoots (m : Method) : Prop := (0 :: m.exceptionTable.map Handler.handlerPc).Nodup

instance (m : Method) : Decidable m.DistinctRoots := inferInstanceAs (Decidable (List.Nodup _))

def NoWideRet (m : Method) : Prop :=
  ∀ pc, m.Reached pc → m.kind pc = .wide → m.kind (pc + 1) ≠ .ret

def EndsInside (m : Method) : Prop :=
  ∀ handler ∈ m.exceptionTable, handler.startPc ≤ handler.endPc → handler.endPc < m.codelen

end Method

namespace Analysis

variable {m : Method} {a a' : Analysis} {pc : Nat} {finished : Nat → Prop}

/-! One round of the loop. -/

theorem npcs_narrow (plain : m.kind pc ≠ .wide) : npcs m false pc = m.edges pc := by
  obtain ⟨_, _, _, _, localLen, iincLen⟩ := opcodeLen_of_kind (m.opcode pc) (opcode_lt m pc)
  have kind_eq : m.kind pc = kindOf (m.opcode pc) := rfl
  unfold npcs Method.edges
  cases kind : m.kind pc with
  | wide => exact absurd kind plain
  | loadOrStore =>
      have length : m.length pc = 2 := by
        unfold Method.length
        rw [kind]
        exact localLen (kind_eq.symm.trans kind)
      simp [length]
  | iinc =>
      have length : m.length pc = 3 := by
        unfold Method.length
        rw [kind]
        exact iincLen (kind_eq.symm.trans kind)
      simp [length]
  | _ => rfl

theorem wideAfter_narrow (plain : m.kind pc ≠ .wide) : wideAfter m false pc = false := by
  unfold wideAfter
  cases kind : m.kind pc with
  | wide => exact absurd kind plain
  | _ => rfl

theorem subroutine_wide (wide : m.kind pc = .wide) : m.subroutine pc = none := by
  unfold Method.subroutine
  rw [wide]

theorem widened_eqs (wide : m.kind pc = .wide)
    (operand : m.kind (pc + 1) = .loadOrStore ∨ m.kind (pc + 1) = .iinc) :
    npcs m true (pc + 1) = m.edges pc ∧ wideAfter m true (pc + 1) = false ∧
      m.subroutine (pc + 1) = none := by
  have length := Method.length_wide wide
  unfold npcs wideAfter Method.subroutine Method.edges
  rw [wide]
  rcases operand with kind | kind
  · rw [kind] at length ⊢
    simp [length, Nat.add_assoc]
  · rw [kind] at length ⊢
    simp [length, Nat.add_assoc]

/-- The stack holds the bytecodes that wait; on its top is the opcode behind a `wide` that has
just been analysed. -/
def Invariant (m : Method) (a : Analysis) : Prop :=
  ∃ finished pending waiting, a.tstack = (pending.map (· + 1)).toList ++ waiting ∧
    a.wide = pending.isSome ∧ (∀ pc ∈ pending, m.kind pc = .wide) ∧ Stacked m a ∧
    Traversal m finished pending waiting a

theorem Traversal.congr {current : Option Nat} {waiting : List Nat}
    (traversal : Traversal m finished current waiting a) (visited : a'.visited = a.visited)
    (joinPoint : a'.joinPoint = a.joinPoint) : Traversal m finished current waiting a' := by
  obtain ⟨waits, begun, visits, widened, done, roots, joined⟩ := traversal
  rw [← visited] at begun visits widened done roots
  rw [← joinPoint] at joined
  exact ⟨waits, begun, visits, widened, done, roots, joined⟩

theorem Stacked.tail {tstack : List Nat} (stacked : Stacked m a) (top : a.tstack = pc :: tstack)
    (wide : Bool) : Stacked m { a with wide := wide, tstack := tstack } where
  nodup := (List.nodup_cons.mp (top ▸ stacked.nodup)).2
  inside q member := stacked.inside q (top ▸ List.mem_cons_of_mem _ member)
  visited q member := stacked.visited q (top ▸ List.mem_cons_of_mem _ member)

theorem finishes (valid : m.Valid) (stacked : Stacked m a) (narrow : a.wide = false)
    (traversal : Traversal m finished (some pc) a.tstack a) :
    ∃ next, ((m.edges pc).foldlM (processForNpc m) a).bind
        (processForSubroutines m (m.subroutine pc)) = some next ∧
      Invariant m next ∧
      next.tstack.length + next.unvisited m = a.tstack.length + a.unvisited m := by
  have reached := (traversal.begun pc rfl).1
  have boundary := valid.reached_boundary reached
  obtain ⟨a', edges, stacked', processed⟩ := processForNpcs_spec stacked fun npc member => by
    obtain ⟨q, rfl, inside, _⟩ := valid.edges pc boundary npc member
    exact ⟨q, rfl, inside⟩
  obtain ⟨next, subroutine, stacked'', processed'⟩ :=
    processForSubroutines_spec stacked' fun npc member => by
      obtain ⟨q, rfl, inside, _⟩ := valid.subroutine pc boundary npc member
      exact ⟨q, rfl, inside⟩
  refine ⟨next, by rw [edges]; exact subroutine, ?_, ?_⟩
  · refine ⟨_, none, next.tstack, rfl, ?_, by rintro _ ⟨⟩, stacked'',
      traversal.finish valid rfl processed processed'⟩
    rw [processed'.wide, processed.wide, narrow]
    rfl
  · exact processed'.measure.trans processed.measure

theorem step_top {tstack : List Nat} (top : a.tstack = pc :: tstack) :
    a.step m = { a with tstack := tstack }.analyseBytecode m pc := by
  unfold step
  rw [top]

theorem step_invariant (valid : m.Valid) (noWideRet : m.NoWideRet) (holds : Invariant m a)
    (busy : (!a.tstack.isEmpty) = true) :
    ∃ next, a.step m = some next ∧ Invariant m next ∧
      next.tstack.length + next.unvisited m < a.tstack.length + a.unvisited m := by
  obtain ⟨finished, pending, waiting, stack, wide, widens, stacked, traversal⟩ := holds
  cases pending with
  | none =>
      change a.tstack = waiting at stack
      cases waiting with
      | nil =>
          rw [stack] at busy
          cases busy
      | cons pc rest =>
          have absent : pc ∉ rest := (List.nodup_cons.mp (stack ▸ stacked.nodup)).1
          have here : a.visited pc = true :=
            stacked.visited pc (stack ▸ List.mem_cons_self)
          have popped := traversal.pop absent here
          have reached := (popped.begun pc rfl).1
          have boundary := valid.reached_boundary reached
          have stacked' (wide : Bool) := stacked.tail stack wide
          have popped' (wide : Bool) : Traversal m finished (some pc) rest
              { a with wide := wide, tstack := rest } := popped.congr rfl rfl
          have shorter : rest.length + a.unvisited m < a.tstack.length + a.unvisited m := by
            rw [stack, List.length_cons]
            omega
          rw [step_top stack, analyseBytecode_eq valid fun _ => boundary]
          dsimp only
          rw [wide]
          by_cases kind : m.kind pc = .wide
          · -- its second opcode is put on the stack
            have fresh : a.visited (pc + 1) = false := by
              refine Bool.eq_false_iff.mpr fun visited => ?_
              rcases traversal.widened pc boundary kind visited with none | done
              · cases none
              · exact (popped.begun pc rfl).2.1 done
            have inside : pc + 1 < m.codelen := by
              have fits := valid.fits pc boundary
              rw [Method.length_wide kind] at fits
              split at fits <;> omega
            obtain ⟨next, run, stacked'', processed⟩ :=
              processForNpc_spec (stacked' true) inside
            have pushed : next.tstack = (pc + 1) :: rest := by
              have room := (stacked' true).room inside fresh
              have range : (0 : Int) ≤ (pc + 1 : Nat) ∧ ((pc + 1 : Nat) : Int) < m.codelen := by
                omega
              rw [processForNpc, if_pos range, Int.toNat_natCast, if_neg (by simp [fresh]), push,
                if_pos ⟨room, inside⟩] at run
              rw [← Option.some.inj run]
            refine ⟨next, ?_, ⟨finished, some pc, rest, pushed, processed.wide, ?_, stacked'',
              (popped' true).widen valid kind processed⟩, ?_⟩
            · have order : npcs m false pc = [((pc + 1 : Nat) : Int)] := by
                unfold npcs
                rw [kind]
              have flag : wideAfter m false pc = true := by
                unfold wideAfter
                rw [kind]
              rw [Option.isSome_none, order, flag, subroutine_wide kind, List.foldlM_cons, run]
              rfl
            · intro q same
              cases same
              exact kind
            · exact processed.measure.trans_lt shorter
          · rw [Option.isSome_none, npcs_narrow kind, wideAfter_narrow kind]
            obtain ⟨next, run, holds, measure⟩ :=
              finishes valid (stacked' false) rfl (popped' false)
            exact ⟨next, run, holds, measure.trans_lt shorter⟩
  | some pc =>
      have kind := widens pc rfl
      have reached := (traversal.begun pc rfl).1
      have boundary := valid.reached_boundary reached
      have operand : m.kind (pc + 1) = .loadOrStore ∨ m.kind (pc + 1) = .iinc := by
        rcases valid.widened pc boundary kind with operand | operand | ret
        · exact .inl operand
        · exact .inr operand
        · exact absurd ret (noWideRet pc reached kind)
      have noTable : m.kind (pc + 1) ≠ .tableswitch := by
        intro table
        rcases operand with operand | operand <;> simp [operand] at table
      obtain ⟨edges, flag, subroutine⟩ := widened_eqs kind operand
      change a.tstack = (pc + 1) :: waiting at stack
      have shorter : waiting.length + a.unvisited m < a.tstack.length + a.unvisited m := by
        rw [stack, List.length_cons]
        omega
      rw [step_top stack, analyseBytecode_eq valid fun table => absurd table noTable]
      dsimp only
      rw [wide, Option.isSome_some, edges, flag, subroutine, ← subroutine_wide kind]
      obtain ⟨next, run, holds, measure⟩ :=
        finishes valid (stacked.tail stack false) rfl (traversal.congr rfl rfl)
      exact ⟨next, run, holds, measure.trans_lt shorter⟩

/-! The start of the traversal. -/

theorem markTry_eq {handler : Handler}
    (ends : handler.startPc ≤ handler.endPc → handler.endPc < m.codelen) :
    ∃ withinTry, a.markTry m handler = some { a with withinTry := withinTry } := by
  have inside : ¬ (handler.startPc ≤ handler.endPc ∧ m.codelen ≤ handler.endPc) :=
    fun ⟨nonempty, beyond⟩ => absurd (ends nonempty) (Nat.not_lt.mpr beyond)
  rw [markTry, if_neg inside]
  exact ⟨_, rfl⟩

structure Rooted (m : Method) (roots : List Nat) (a : Analysis) : Prop where
  wide : a.wide = false
  tstack : a.tstack = roots.reverse
  visited : ∀ pc, a.visited pc = true ↔ pc ∈ roots
  inside : ∀ pc ∈ roots, pc < m.codelen
  nodup : roots.Nodup

theorem Rooted.stacked {roots : List Nat} (rooted : Rooted m roots a) : Stacked m a where
  nodup := by
    rw [rooted.tstack]
    exact List.nodup_reverse.mpr rooted.nodup
  inside pc member := rooted.inside pc (List.mem_reverse.mp (rooted.tstack ▸ member))
  visited pc member := (rooted.visited pc).mpr (List.mem_reverse.mp (rooted.tstack ▸ member))

theorem Rooted.push {roots : List Nat} (rooted : Rooted m roots a) (inside : pc < m.codelen)
    (fresh : pc ∉ roots) : ∃ next, a.push m pc = some next ∧ Rooted m (roots ++ [pc]) next := by
  have unvisited : a.visited pc = false :=
    Bool.eq_false_iff.mpr fun visited => fresh ((rooted.visited pc).mp visited)
  have room := rooted.stacked.room inside unvisited
  rw [Analysis.push, if_pos ⟨room, inside⟩]
  refine ⟨_, rfl, rooted.wide, ?_, ?_, ?_, ?_⟩
  · rw [rooted.tstack, List.reverse_append]
    rfl
  · intro q
    rw [List.mem_append, List.mem_singleton, ← rooted.visited q]
    by_cases same : q = pc
    · simp [same]
    · simp [same]
  · intro q member
    rcases List.mem_append.mp member with member | member
    · exact rooted.inside q member
    · rwa [List.mem_singleton.mp member]
  · rw [← List.concat_eq_append]
    exact rooted.nodup.concat fresh

theorem insertExceptionHandlers_spec (valid : m.Valid) (distinct : m.DistinctRoots)
    (ends : m.EndsInside) :
    ∃ next, start.insertExceptionHandlers m = some next ∧
      Rooted m (m.exceptionTable.map Handler.handlerPc) next := by
  have nodup := (List.nodup_cons.mp distinct).2
  unfold insertExceptionHandlers
  refine foldlM_prefix (fun done a => Rooted m (done.map Handler.handlerPc) a) ?_ ?_
  · intro done handler rest a split rooted
    have member : handler ∈ m.exceptionTable := by
      rw [split]
      simp
    obtain ⟨⟨pc, same, boundary⟩, _⟩ := valid.handlers handler member
    obtain rfl := Int.ofNat_inj.mp same
    obtain ⟨withinTry, marked⟩ := markTry_eq (a := a) (ends handler member)
    have rooted' : Rooted m (done.map Handler.handlerPc) { a with withinTry := withinTry } :=
      ⟨rooted.wide, rooted.tstack, rooted.visited, rooted.inside, rooted.nodup⟩
    have fresh : handler.handlerPc ∉ done.map Handler.handlerPc := by
      rw [split, List.map_append, List.map_cons] at nodup
      intro earlier
      exact List.disjoint_of_nodup_append nodup earlier List.mem_cons_self
    obtain ⟨next, pushed, rooted''⟩ := rooted'.push boundary.1 fresh
    refine ⟨next, by rw [marked]; exact pushed, ?_⟩
    rwa [List.map_append]
  · exact ⟨rfl, rfl, fun pc => by simp [start], nofun, List.nodup_nil⟩

/-- The roots are reached, and nothing has been done yet. -/
theorem Rooted.traversal {roots : List Nat} (rooted : Rooted m roots a)
    (valid : m.Valid) (distinct : m.DistinctRoots)
    (all : roots = m.exceptionTable.map Handler.handlerPc ++ [0]) :
    Traversal m (fun _ => False) none a.tstack a := by
  have root (pc : Nat) : pc ∈ roots ↔
      (∃ handler ∈ m.exceptionTable, handler.handlerPc = pc) ∨ pc = 0 := by
    rw [all, List.mem_append, List.mem_map, List.mem_singleton]
  have reached (pc : Nat) (member : pc ∈ roots) : m.Reached pc := by
    rcases (root pc).mp member with ⟨handler, entry, rfl⟩ | rfl
    · exact .handler entry
    · exact .start
  have stack (pc : Nat) : pc ∈ a.tstack ↔ pc ∈ roots := by
    rw [rooted.tstack, List.mem_reverse]
  obtain ⟨notFirst, nodup⟩ := List.nodup_cons.mp distinct
  have apart {i : Nat} (enters : m.Enters (.handler i) 0) : False := by
    obtain ⟨handler, found, same⟩ := enters
    exact notFirst (List.mem_map.mpr ⟨handler, List.mem_of_getElem? found, same⟩)
  refine ⟨?_, by rintro _ ⟨⟩, ?_, ?_, by rintro _ ⟨⟩, ?_, ?_⟩
  · exact fun pc member => ⟨reached pc ((stack pc).mp member), id, by rintro ⟨⟩⟩
  · exact fun pc _ visited => .inl ((stack pc).mpr ((rooted.visited pc).mp visited))
  · intro pc boundary wide visited
    have next := valid.reached_boundary (reached _ ((rooted.visited _).mp visited))
    exact absurd next (boundary.not_widened wide)
  · refine ⟨(rooted.visited 0).mpr ((root 0).mpr (.inr rfl)), fun handler member => ?_⟩
    exact (rooted.visited _).mpr ((root _).mpr (.inl ⟨handler, member, rfl⟩))
  · intro pc entry entry' different seen seen' enters enters'
    cases entry with
    | edge pc' i => exact seen.elim
    | method =>
        obtain rfl : pc = 0 := enters
        cases entry' with
        | method => exact absurd rfl different
        | handler i => exact (apart enters').elim
        | edge pc' i => exact seen'.elim
    | handler i =>
        cases entry' with
        | method =>
            obtain rfl : pc = 0 := enters'
            exact (apart enters).elim
        | edge pc' j => exact seen'.elim
        | handler j =>
            obtain ⟨handler, found, rfl⟩ := enters
            obtain ⟨handler', found', same⟩ := enters'
            have at_i : (m.exceptionTable.map Handler.handlerPc)[i]? = some handler.handlerPc := by
              rw [List.getElem?_map, found]
              rfl
            have at_j : (m.exceptionTable.map Handler.handlerPc)[j]? = some handler.handlerPc := by
              rw [List.getElem?_map, found', ← same]
              rfl
            have bound := (List.getElem?_eq_some_iff.mp at_i).1
            have equal := (List.getElem?_inj bound nodup).mp (at_i.trans at_j.symm)
            exact absurd (congrArg Method.Entry.handler equal) different

theorem start_invariant (valid : m.Valid) (distinct : m.DistinctRoots) (ends : m.EndsInside) :
    ∃ first, (start.insertExceptionHandlers m).bind (fun a => a.push m 0) = some first ∧
      Invariant m first := by
  obtain ⟨a, inserted, rooted⟩ := insertExceptionHandlers_spec valid distinct ends
  obtain ⟨first, pushed, rooted'⟩ :=
    rooted.push valid.codelen_pos (List.nodup_cons.mp distinct).1
  refine ⟨first, by rw [inserted]; exact pushed, fun _ => False, none, first.tstack, rfl, ?_,
    by rintro _ ⟨⟩, rooted'.stacked, rooted'.traversal valid distinct rfl⟩
  exact rooted'.wide

/-! The end of the traversal. -/

theorem Invariant.joined (holds : Invariant m a) (valid : m.Valid) (empty : a.tstack = [])
    (joined : m.Joined pc) : a.joinPoint pc = true := by
  obtain ⟨finished, pending, waiting, stack, _, _, _, traversal⟩ := holds
  rw [empty] at stack
  obtain ⟨nothing, rfl⟩ := List.append_eq_nil_iff.mp stack.symm
  have idle : pending = none := by
    cases pending with
    | none => rfl
    | some pc => cases nothing
  subst idle
  have done (pc : Nat) (boundary : m.Boundary pc) (visited : a.visited pc = true) :
      finished pc := by
    rcases traversal.visited pc boundary visited with waits | begun | done
    · cases waits
    · cases begun
    · exact done
  have reaches {pc : Nat} (reached : m.Reached pc) : finished pc := by
    refine done pc (valid.reached_boundary reached) ?_
    induction reached with
    | start => exact traversal.roots.1
    | handler member => exact traversal.roots.2 _ member
    | edge reached member ih =>
        exact (traversal.done _ (done _ (valid.reached_boundary reached) ih)).2.2 _ (.inl member)
    | subroutine reached member ih =>
        exact (traversal.done _ (done _ (valid.reached_boundary reached) ih)).2.2 _ (.inr member)
  have seen {entry : Method.Entry} (enters : m.Enters entry pc) : Seen finished entry := by
    cases entry with
    | method => trivial
    | handler i => trivial
    | edge pc' i => exact reaches enters.1
  obtain ⟨entry, entry', different, enters, enters'⟩ := joined
  exact traversal.joined pc entry entry' different (seen enters) (seen enters') enters enters'

theorem insertExceptionHandlers_endsInside (run : a.insertExceptionHandlers m = some a') :
    m.EndsInside := by
  refine foldlM_run (fun done _ => ∀ handler ∈ done, handler.startPc ≤ handler.endPc →
    handler.endPc < m.codelen) ?_ nofun run
  intro done handler rest a next _ holds step
  obtain ⟨_, marked, _⟩ := Option.bind_eq_some_iff.mp step
  intro other member
  rcases List.mem_append.mp member with member | member
  · exact holds other member
  · rw [List.mem_singleton.mp member]
    intro nonempty
    by_contra beyond
    rw [markTry, if_pos ⟨nonempty, Nat.not_lt.mp beyond⟩] at marked
    cases marked

theorem bytecodeAnalysis_eq (fuel : Nat) :
    bytecodeAnalysis m fuel =
      ((start.insertExceptionHandlers m).bind fun a => a.push m 0).bind
        (whileLoop (fun a => !a.tstack.isEmpty) (step m) fuel) := by
  rw [Option.bind_assoc]
  rfl

end Analysis

variable {m : Method}

open Analysis in
theorem Method.Valid.analysed_iff (valid : m.Valid) (distinct : m.DistinctRoots)
    (noWideRet : m.NoWideRet) : Analysed m ↔ m.EndsInside := by
  constructor
  · rintro ⟨final, ⟨enough, run⟩, _⟩
    have run := run enough le_rfl
    rw [bytecodeAnalysis_eq, Option.bind_assoc, Option.bind_eq_some_iff] at run
    obtain ⟨a, inserted, _⟩ := run
    exact insertExceptionHandlers_endsInside inserted
  · intro ends
    obtain ⟨first, started, holds⟩ := start_invariant valid distinct ends
    obtain ⟨final, run, last, empty⟩ := whileLoop_total (fun a => !a.tstack.isEmpty) (step m)
      (Invariant m) (fun a => a.tstack.length + a.unvisited m)
      (fun a holds busy => step_invariant valid noWideRet holds busy) le_rfl holds
    refine ⟨final, ⟨first.tstack.length + first.unvisited m, fun fuel enough => ?_⟩, ?_⟩
    · rw [bytecodeAnalysis_eq, started]
      exact whileLoop_more enough run
    · intro pc joined
      refine last.joined valid ?_ joined
      simpa using empty

/-- `if (x == 0); return`, with the `return` as the handler of a range from the beginning. -/
def Method.guarded (endPc : Nat) : Method where
  code pc := [26, 153, 0, 3, 177].getD pc 0
  codelen := 5
  exceptionTable := [⟨0, endPc, 4⟩]

theorem Method.guarded_boundary {endPc pc : Nat} (boundary : (guarded endPc).Boundary pc) :
    pc = 0 ∨ pc = 1 ∨ pc = 4 := by
  have second : (guarded endPc).Boundary 1 := ⟨(by decide : 1 < 5), 1, rfl⟩
  have inside : pc < 5 := boundary.1
  rcases Nat.lt_or_ge 1 pc with after | _
  · have apart : 1 + 3 ≤ pc := second.length_le boundary after
    omega
  · omega

theorem Method.guarded_valid {endPc : Nat} (inside : endPc ≤ 5) : (guarded endPc).Valid where
  codelen_pos := (by decide : 0 < 5)
  codelen_small := (by decide : 5 < 2 ^ 16)
  fits pc boundary := by
    rcases guarded_boundary boundary with rfl | rfl | rfl
    · exact (by decide : 0 + 1 ≤ 5)
    · exact (by decide : 1 + 3 ≤ 5)
    · exact (by decide : 4 + 1 ≤ 5)
  edges pc boundary := by
    have second : (guarded endPc).Boundary 1 := ⟨(by decide : 1 < 5), 1, rfl⟩
    have last : (guarded endPc).Boundary 4 := ⟨(by decide : 4 < 5), 2, rfl⟩
    intro npc member
    rcases guarded_boundary boundary with rfl | rfl | rfl
    · obtain rfl : npc = 1 := List.mem_singleton.mp member
      exact ⟨1, rfl, second⟩
    · have both : (guarded 0).edges 1 = [4, 4] := by decide
      change npc ∈ (guarded 0).edges 1 at member
      rw [both] at member
      obtain rfl : npc = 4 := by simpa using member
      exact ⟨4, rfl, last⟩
    · cases member
  subroutine pc boundary := by
    rcases guarded_boundary boundary with rfl | rfl | rfl <;> exact nofun
  widened pc boundary wide := by
    rcases guarded_boundary boundary with rfl | rfl | rfl <;> cases wide
  table pc boundary table := by
    rcases guarded_boundary boundary with rfl | rfl | rfl <;> cases table
  pairs pc boundary lookup := by
    rcases guarded_boundary boundary with rfl | rfl | rfl <;> cases lookup
  handlers handler member := by
    rw [List.mem_singleton.mp member]
    exact ⟨⟨4, rfl, (by decide : 4 < 5), 2, rfl⟩, Nat.zero_le _, inside⟩

theorem Method.guarded_analysed : Analysed (Method.guarded 4) := by
  refine ((Method.guarded_valid (by decide)).analysed_iff (by decide) ?_).mpr ?_
  · intro pc reached wide
    have boundary := (Method.guarded_valid (by decide)).reached_boundary reached
    rcases guarded_boundary boundary with rfl | rfl | rfl <;> cases wide
  · intro handler member _
    rw [List.mem_singleton.mp member]
    decide

/-- A range up to the end of the code is marked one byte too far. -/
theorem Method.guarded_not_analysed :
    (Method.guarded 5).Valid ∧ ¬ Analysed (Method.guarded 5) := by
  refine ⟨Method.guarded_valid le_rfl, ?_⟩
  rintro ⟨final, ⟨enough, run⟩, _⟩
  cases run enough le_rfl

end LaTTe.Bytecodes
