import LaTTe.Bytecodes.Analysis
import Mathlib.Data.Finset.Card

namespace LaTTe.Bytecodes

open LaTTe.Data
open LaTTe.Translator.Wide (getInt16)

namespace Analysis

variable {m : Method}

/-! Where the analysis goes from a bytecode. -/

def npcs (m : Method) (wide : Bool) (pc : Nat) : List Int :=
  match m.kind pc with
  | .wide => [(pc + 1 : Nat)]
  | .loadOrStore => [(pc + 2 + if wide then 1 else 0 : Nat)]
  | .iinc => [(pc + 3 + if wide then 2 else 0 : Nat)]
  | _ => m.edges pc

def wideAfter (m : Method) (wide : Bool) (pc : Nat) : Bool :=
  match m.kind pc with
  | .wide => true
  | .loadOrStore | .iinc => false
  | _ => wide

def processForSubroutines (m : Method) (addrs : Option Int) (a : Analysis) : Option Analysis :=
  match addrs with
  | none => some a
  | some addr => a.processForSubroutine m addr

@[simp] theorem processForSubroutines_none : processForSubroutines m none = some := rfl

@[simp] theorem processForSubroutines_some (addr : Int) :
    processForSubroutines m (some addr) = fun a => a.processForSubroutine m addr := rfl

theorem opcodeLen_of_kind : ∀ opcode < 256,
    (kindOf opcode = .ifCond → getOpcodeLen opcode = 3) ∧
    (kindOf opcode = .jsr → getOpcodeLen opcode = 3) ∧
    (kindOf opcode = .jsrW → getOpcodeLen opcode = 5) ∧
    (kindOf opcode = .wide → getOpcodeLen opcode = 1) ∧
    (kindOf opcode = .loadOrStore → getOpcodeLen opcode = 2) ∧
    (kindOf opcode = .iinc → getOpcodeLen opcode = 3) := by
  decide +kernel

theorem opcode_lt (m : Method) (pc : Nat) : m.opcode pc < 256 := (m.code pc).isLt

theorem tableSize_eq (valid : m.Valid) {pc : Nat} (boundary : m.Boundary pc)
    (table : m.kind pc = .tableswitch) :
    (getWord32 m.code (Method.padded pc + 8) - getWord32 m.code (Method.padded pc + 4) + 1).toInt =
      m.tableSize pc := by
  have fits := valid.fits pc boundary
  have positive := valid.table pc boundary table
  have small := valid.codelen_small
  unfold Method.length at fits
  rw [table] at fits
  dsimp only at fits
  have padding : pc < Method.padded pc + 4 := by
    unfold Method.padded
    omega
  unfold Method.tableSize getInt32 at *
  generalize getWord32 m.code (Method.padded pc + 8) = high at *
  generalize getWord32 m.code (Method.padded pc + 4) = low at *
  have one : (1 : BitVec 32).toInt = 1 := rfl
  have inner : (high.toInt - low.toInt).bmod (2 ^ 32) = high.toInt - low.toInt :=
    Int.bmod_eq_of_le (by omega) (by omega)
  rw [BitVec.toInt_add, BitVec.toInt_sub, one, inner, Int.bmod_eq_of_le (by omega) (by omega)]

theorem analyseBytecode_eq (valid : m.Valid) {a : Analysis} {pc : Nat}
    (table : m.kind pc = .tableswitch → m.Boundary pc) :
    a.analyseBytecode m pc =
      ((npcs m a.wide pc).foldlM (processForNpc m) { a with wide := wideAfter m a.wide pc }).bind
        (processForSubroutines m (m.subroutine pc)) := by
  obtain ⟨ifLen, jsrLen, jsrWLen, wideLen, localLen, iincLen⟩ :=
    opcodeLen_of_kind (m.opcode pc) (opcode_lt m pc)
  have kind_eq : m.kind pc = kindOf (m.opcode pc) := rfl
  unfold analyseBytecode npcs wideAfter Method.edges Method.subroutine
  cases kind : m.kind pc with
  | ifCond =>
      rw [ifLen (kind_eq.symm.trans kind)]
      simp
  | goto => simp
  | gotoW => simp
  | jsr =>
      rw [jsrLen (kind_eq.symm.trans kind)]
      simp
  | jsrW =>
      rw [jsrWLen (kind_eq.symm.trans kind)]
      simp
  | tableswitch =>
      dsimp only
      rw [tableSize_eq valid (table kind) kind]
      have place (i : Nat) :
          Method.padded pc + 8 + (i + 1) * 4 = Method.padded pc + 12 + 4 * i := by
        omega
      simp only [place, List.foldlM_append, List.foldlM_map, List.foldlM_cons, List.foldlM_nil,
        processForSubroutines_none, bind_pure]
      exact (Option.bind_fun_some _).symm
  | lookupswitch =>
      dsimp only
      have place (i : Nat) :
          Method.padded pc + 4 + (i + 1) * 8 = Method.padded pc + 12 + 8 * i := by
        omega
      simp only [place, List.foldlM_append, List.foldlM_map, List.foldlM_cons, List.foldlM_nil,
        processForSubroutines_none, bind_pure]
      exact (Option.bind_fun_some _).symm
  | return_ => simp
  | ret => simp
  | wide =>
      rw [wideLen (kind_eq.symm.trans kind)]
      simp
  | loadOrStore =>
      rw [localLen (kind_eq.symm.trans kind)]
      simp
  | iinc =>
      rw [iincLen (kind_eq.symm.trans kind)]
      simp
  | other =>
      have length : m.length pc = getOpcodeLen (m.opcode pc) := by
        unfold Method.length
        rw [kind]
      simp [length]

/-! One bytecode after another. -/

def unvisited (m : Method) (a : Analysis) : Nat :=
  ((Finset.range m.codelen).filter (a.visited · = false)).card

structure Processed (m : Method) (a : Analysis) (done : List Int) (a' : Analysis) : Prop where
  wide : a'.wide = a.wide
  visited : ∀ pc : Nat, a'.visited pc = true ↔ a.visited pc = true ∨ (pc : Int) ∈ done
  mem : ∀ pc : Nat, pc ∈ a'.tstack ↔ pc ∈ a.tstack ∨ (pc : Int) ∈ done ∧ a.visited pc = false
  nodup : a'.tstack.Nodup
  measure : a'.tstack.length + a'.unvisited m = a.tstack.length + a.unvisited m
  joinPoint : ∀ pc : Nat, a.joinPoint pc = true ∨ (pc : Int) ∈ done ∧ a.visited pc = true →
    a'.joinPoint pc = true
  again : ∀ pc i j : Nat, i < j → done[i]? = some (pc : Int) → done[j]? = some (pc : Int) →
    a'.joinPoint pc = true

structure Stacked (m : Method) (a : Analysis) : Prop where
  nodup : a.tstack.Nodup
  inside : ∀ pc ∈ a.tstack, pc < m.codelen
  visited : ∀ pc ∈ a.tstack, a.visited pc = true

variable {a a' : Analysis} {pc : Nat}

theorem Stacked.room (stacked : Stacked m a) (inside : pc < m.codelen)
    (fresh : a.visited pc = false) : a.tstack.length < m.codelen := by
  have absent : pc ∉ a.tstack := fun member => by
    rw [stacked.visited pc member] at fresh
    cases fresh
  have subset : (pc :: a.tstack) ⊆ List.range m.codelen := by
    intro q member
    rcases List.mem_cons.mp member with rfl | member
    · exact List.mem_range.mpr inside
    · exact List.mem_range.mpr (stacked.inside q member)
  have nodup : (pc :: a.tstack).Nodup := List.nodup_cons.mpr ⟨absent, stacked.nodup⟩
  have fewer := (List.subperm_of_subset nodup subset).length_le
  rw [List.length_cons, List.length_range] at fewer
  omega

theorem unvisited_push (inside : pc < m.codelen) (fresh : a.visited pc = false)
    (tstack : List Nat) (joinPoint withinTry : Nat → Bool) (wide : Bool) :
    unvisited m ⟨wide, tstack, Function.update a.visited pc true, joinPoint, withinTry⟩ + 1 =
      unvisited m a := by
  unfold unvisited
  have member : pc ∈ (Finset.range m.codelen).filter (a.visited · = false) :=
    Finset.mem_filter.mpr ⟨Finset.mem_range.mpr inside, fresh⟩
  rw [← Finset.card_erase_add_one member]
  congr 2
  ext q
  by_cases same : q = pc
  · subst same
    simp
  · simp [same]

theorem processForNpc_spec (stacked : Stacked m a) (inside : pc < m.codelen) :
    ∃ a', a.processForNpc m pc = some a' ∧ Stacked m a' ∧ Processed m a [(pc : Int)] a' := by
  have range : (0 : Int) ≤ pc ∧ (pc : Int) < m.codelen := by omega
  rw [processForNpc, if_pos range, Int.toNat_natCast]
  have once (q i j : Nat) (before : i < j) (first : [(pc : Int)][i]? = some (q : Int))
      (second : [(pc : Int)][j]? = some (q : Int)) : False := by
    have small := (List.getElem?_eq_some_iff.mp second).1
    rw [List.length_singleton] at small
    omega
  by_cases visited : a.visited pc = true
  · rw [if_pos visited]
    refine ⟨_, rfl, ⟨stacked.nodup, stacked.inside, stacked.visited⟩, rfl, ?_, ?_, stacked.nodup,
      rfl, ?_, fun q i j before first second => (once q i j before first second).elim⟩
    · intro q
      rw [List.mem_singleton, Int.ofNat_inj]
      exact ⟨.inl, fun either => either.elim id fun same => same ▸ visited⟩
    · intro q
      rw [List.mem_singleton, Int.ofNat_inj]
      refine ⟨.inl, fun either => either.elim id ?_⟩
      rintro ⟨rfl, fresh⟩
      rw [visited] at fresh
      cases fresh
    · intro q either
      by_cases same : q = pc
      · rw [same]
        exact Function.update_self _ _ _
      · refine (Function.update_of_ne same _ _).trans (either.resolve_right ?_)
        rintro ⟨member, -⟩
        exact same (Int.ofNat_inj.mp (List.mem_singleton.mp member))
  · rw [if_neg visited]
    have fresh := Bool.eq_false_iff.mpr visited
    have room := stacked.room inside fresh
    rw [push, if_pos ⟨room, inside⟩]
    have absent : pc ∉ a.tstack := fun member => visited (stacked.visited pc member)
    have nodup : (pc :: a.tstack).Nodup := List.nodup_cons.mpr ⟨absent, stacked.nodup⟩
    have visits (q : Nat) : Function.update a.visited pc true q = true ↔
        a.visited q = true ∨ q = pc := by
      by_cases same : q = pc
      · simp [same]
      · simp [same]
    refine ⟨_, rfl, ⟨nodup, ?_, ?_⟩, rfl, ?_, ?_, nodup, ?_, ?_,
      fun q i j before first second => (once q i j before first second).elim⟩
    · intro q member
      rcases List.mem_cons.mp member with rfl | member
      · exact inside
      · exact stacked.inside q member
    · intro q member
      rcases List.mem_cons.mp member with rfl | member
      · exact (visits q).mpr (.inr rfl)
      · exact (visits q).mpr (.inl (stacked.visited q member))
    · intro q
      rw [List.mem_singleton, Int.ofNat_inj]
      exact visits q
    · intro q
      rw [List.mem_singleton, Int.ofNat_inj, List.mem_cons, or_comm]
      refine or_congr_right ⟨fun same => ⟨same, same ▸ fresh⟩, And.left⟩
    · have fewer := unvisited_push inside fresh (pc :: a.tstack) a.joinPoint a.withinTry
        a.wide
      rw [List.length_cons]
      omega
    · rintro q (joined | ⟨member, visited'⟩)
      · exact joined
      · rw [Int.ofNat_inj.mp (List.mem_singleton.mp member)] at visited'
        exact absurd visited' visited

theorem Processed.nil (stacked : Stacked m a) : Processed m a [] a where
  wide := rfl
  visited pc := by simp
  mem pc := by simp
  nodup := stacked.nodup
  measure := rfl
  joinPoint pc := by simp
  again pc i j _ first := by simp at first

theorem Processed.snoc {done : List Int} {a'' : Analysis} (first : Processed m a done a')
    (second : Processed m a' [(pc : Int)] a'') : Processed m a (done ++ [(pc : Int)]) a'' where
  wide := second.wide.trans first.wide
  visited q := by
    rw [second.visited, first.visited, List.mem_append, or_assoc]
  mem q := by
    have fresh : a'.visited q = false ↔ a.visited q = false ∧ (q : Int) ∉ done := by
      rw [← Bool.not_eq_true, ← Bool.not_eq_true, first.visited, not_or]
    rw [second.mem, first.mem, fresh, List.mem_append]
    tauto
  nodup := second.nodup
  measure := second.measure.trans first.measure
  joinPoint q := by
    rintro (joined | ⟨member, visited⟩)
    · exact second.joinPoint q (.inl (first.joinPoint q (.inl joined)))
    · rcases List.mem_append.mp member with member | member
      · exact second.joinPoint q (.inl (first.joinPoint q (.inr ⟨member, visited⟩)))
      · exact second.joinPoint q (.inr ⟨member, (first.visited q).mpr (.inl visited)⟩)
  again q i j before at_i at_j := by
    have bound := (List.getElem?_eq_some_iff.mp at_j).1
    rw [List.length_append, List.length_singleton] at bound
    rw [List.getElem?_append_left (by omega)] at at_i
    by_cases last : j < done.length
    · rw [List.getElem?_append_left last] at at_j
      exact second.joinPoint q (.inl (first.again q i j before at_i at_j))
    · rw [List.getElem?_append_right (Nat.not_lt.mp last)] at at_j
      exact second.joinPoint q (.inr ⟨List.mem_of_getElem? at_j,
        (first.visited q).mpr (.inr (List.mem_of_getElem? at_i))⟩)

theorem processForNpcs_spec (stacked : Stacked m a) {npcs : List Int}
    (inside : ∀ npc ∈ npcs, ∃ pc : Nat, npc = pc ∧ pc < m.codelen) :
    ∃ a', npcs.foldlM (processForNpc m) a = some a' ∧ Stacked m a' ∧ Processed m a npcs a' := by
  refine foldlM_prefix (fun done a' => Stacked m a' ∧ Processed m a done a') ?_
    ⟨stacked, .nil stacked⟩
  rintro done npc rest a' split ⟨stacked', processed⟩
  obtain ⟨pc, rfl, below⟩ := inside npc (by rw [split]; simp)
  obtain ⟨a'', done', stacked'', processed'⟩ := processForNpc_spec stacked' below
  exact ⟨a'', done', stacked'', processed.snoc processed'⟩

theorem processForSubroutines_spec (stacked : Stacked m a) {addrs : Option Int}
    (inside : ∀ addr ∈ addrs, ∃ pc : Nat, addr = pc ∧ pc < m.codelen) :
    ∃ a', a.processForSubroutines m addrs = some a' ∧ Stacked m a' ∧
      Processed m a (addrs.toList.filter fun addr => !a.visited addr.toNat) a' := by
  cases addrs with
  | none => exact ⟨a, rfl, stacked, .nil stacked⟩
  | some addr =>
      obtain ⟨pc, rfl, below⟩ := inside addr rfl
      have range : (0 : Int) ≤ pc ∧ (pc : Int) < m.codelen := by omega
      rw [processForSubroutines, processForSubroutine, if_pos range, Int.toNat_natCast]
      by_cases visited : a.visited pc = true
      · rw [if_pos visited]
        refine ⟨a, rfl, stacked, ?_⟩
        simpa [visited] using Processed.nil stacked
      · rw [if_neg visited]
        simpa [visited] using processForNpc_spec stacked below

/-! The invariant of the traversal. -/

def Seen (finished : Nat → Prop) : Method.Entry → Prop
  | .method | .handler _ => True
  | .edge pc _ => finished pc

/-- The bytecodes in `waiting` are to be analysed, `current` is being analysed. -/
structure Traversal (m : Method) (finished : Nat → Prop) (current : Option Nat)
    (waiting : List Nat) (a : Analysis) : Prop where
  waits : ∀ pc ∈ waiting, m.Reached pc ∧ ¬ finished pc ∧ current ≠ some pc
  begun : ∀ pc ∈ current, m.Reached pc ∧ ¬ finished pc ∧ a.visited pc = true
  visited : ∀ pc, m.Boundary pc → a.visited pc = true →
    pc ∈ waiting ∨ current = some pc ∨ finished pc
  widened : ∀ pc, m.Boundary pc → m.kind pc = .wide → a.visited (pc + 1) = true →
    current = some pc ∨ finished pc
  done : ∀ pc, finished pc → m.Reached pc ∧ a.visited pc = true ∧
    ∀ npc : Nat, (npc : Int) ∈ m.edges pc ∨ (npc : Int) ∈ m.subroutine pc → a.visited npc = true
  roots : a.visited 0 = true ∧ ∀ handler ∈ m.exceptionTable, a.visited handler.handlerPc = true
  joined : ∀ pc entry entry', entry ≠ entry' → Seen finished entry → Seen finished entry' →
    m.Enters entry pc → m.Enters entry' pc → a.joinPoint pc = true

namespace Traversal

variable {finished : Nat → Prop} {current : Option Nat} {waiting : List Nat}

theorem entered (traversal : Traversal m finished current waiting a) {entry : Method.Entry}
    (seen : Seen finished entry) (enters : m.Enters entry pc) : a.visited pc = true := by
  cases entry with
  | method =>
      rw [show pc = 0 from enters]
      exact traversal.roots.1
  | handler i =>
      obtain ⟨handler, found, rfl⟩ := enters
      exact traversal.roots.2 handler (List.mem_of_getElem? found)
  | edge pc' i => exact (traversal.done pc' seen).2.2 pc (.inl (List.mem_of_getElem? enters.2))

theorem pop (traversal : Traversal m finished none (pc :: waiting) a)
    (fresh : pc ∉ waiting) (visited : a.visited pc = true) :
    Traversal m finished (some pc) waiting a where
  waits q member := by
    have ⟨reached, unfinished, _⟩ := traversal.waits q (List.mem_cons_of_mem _ member)
    refine ⟨reached, unfinished, fun same => fresh ?_⟩
    rwa [Option.some.inj same]
  begun q same := by
    cases same
    have ⟨reached, unfinished, _⟩ := traversal.waits pc List.mem_cons_self
    exact ⟨reached, unfinished, visited⟩
  visited q boundary visited := by
    rcases traversal.visited q boundary visited with member | none | done
    · rcases List.mem_cons.mp member with rfl | member
      · exact .inr (.inl rfl)
      · exact .inl member
    · cases none
    · exact .inr (.inr done)
  widened q boundary wide visited :=
    .inr ((traversal.widened q boundary wide visited).resolve_left nofun)
  done := traversal.done
  roots := traversal.roots
  joined := traversal.joined

theorem widen (traversal : Traversal m finished (some pc) waiting a) (valid : m.Valid)
    (wide : m.kind pc = .wide) (processed : Processed m a [((pc + 1 : Nat) : Int)] a') :
    Traversal m finished (some pc) waiting a' := by
  have boundary := valid.reached_boundary (traversal.begun pc rfl).1
  have visited (q : Nat) : a'.visited q = true ↔ a.visited q = true ∨ q = pc + 1 := by
    rw [processed.visited, List.mem_singleton, Int.ofNat_inj]
  refine ⟨traversal.waits, ?_, ?_, ?_, ?_, ?_, ?_⟩
  · intro q same
    have ⟨reached, unfinished, visited'⟩ := traversal.begun q same
    exact ⟨reached, unfinished, (visited q).mpr (.inl visited')⟩
  · intro q boundary' visited'
    refine traversal.visited q boundary' (((visited q).mp visited').resolve_right ?_)
    rintro rfl
    exact boundary.not_widened wide boundary'
  · intro q boundary' wide' visited'
    rcases (visited (q + 1)).mp visited' with visited' | same
    · exact traversal.widened q boundary' wide' visited'
    · exact .inl (congrArg some (Nat.succ.inj same).symm)
  · intro q done
    have ⟨reached, visited', edges⟩ := traversal.done q done
    exact ⟨reached, (visited q).mpr (.inl visited'),
      fun npc member => (visited npc).mpr (.inl (edges npc member))⟩
  · exact ⟨(visited 0).mpr (.inl traversal.roots.1),
      fun handler member => (visited _).mpr (.inl (traversal.roots.2 handler member))⟩
  · intro q entry entry' different seen seen' enters enters'
    exact processed.joinPoint q
      (.inl (traversal.joined q entry entry' different seen seen' enters enters'))

/-- When its edges and its subroutine have been processed, a bytecode is done. -/
theorem finish (traversal : Traversal m finished (some pc) waiting a) (valid : m.Valid)
    (tstack : a.tstack = waiting) (processed : Processed m a (m.edges pc) a') {a'' : Analysis}
    (processed' : Processed m a'
      ((m.subroutine pc).toList.filter fun addr => !a'.visited addr.toNat) a'') :
    Traversal m (fun q => finished q ∨ q = pc) none a''.tstack a'' := by
  obtain ⟨reached, unfinished, here⟩ := traversal.begun pc rfl
  have boundary := valid.reached_boundary reached
  have new (q : Nat) (member : (q : Int) ∈ m.edges pc ∨ (q : Int) ∈ m.subroutine pc) :
      m.Reached q :=
    member.elim (fun member => .edge reached member) fun member => .subroutine reached member
  have visited (q : Nat) : a''.visited q = true ↔
      a.visited q = true ∨ (q : Int) ∈ m.edges pc ∨ (q : Int) ∈ m.subroutine pc := by
    rw [processed'.visited, List.mem_filter, Option.mem_toList, Int.toNat_natCast,
      Bool.not_eq_true', ← Bool.not_eq_true, processed.visited, or_assoc]
    tauto
  have stack (q : Nat) (member : q ∈ a''.tstack) : q ∈ waiting ∨ a.visited q = false ∧
      ((q : Int) ∈ m.edges pc ∨ (q : Int) ∈ m.subroutine pc) := by
    rw [processed'.mem, processed.mem, tstack, List.mem_filter, Option.mem_toList] at member
    have before : a'.visited q = false → a.visited q = false := by
      rw [← Bool.not_eq_true, ← Bool.not_eq_true, processed.visited, not_or]
      exact And.left
    tauto
  have stack' (q : Nat) (member : q ∈ waiting ∨ a.visited q = false ∧
      ((q : Int) ∈ m.edges pc ∨ (q : Int) ∈ m.subroutine pc)) : q ∈ a''.tstack := by
    have after : a'.visited q = false ↔ a.visited q = false ∧ (q : Int) ∉ m.edges pc := by
      rw [← Bool.not_eq_true, ← Bool.not_eq_true, processed.visited, not_or]
    rw [processed'.mem, processed.mem, tstack, List.mem_filter, Option.mem_toList,
      Int.toNat_natCast, Bool.not_eq_true', after]
    tauto
  have kept (q : Nat) (joined : a.joinPoint q = true) : a''.joinPoint q = true :=
    processed'.joinPoint q (.inl (processed.joinPoint q (.inl joined)))
  -- an edge of this bytecode meets what has been seen before
  have meets (q i : Nat) (entry : Method.Entry) (seen : Seen finished entry)
      (enters : m.Enters entry q) (edge : (m.edges pc)[i]? = some (q : Int)) :
      a''.joinPoint q = true :=
    processed'.joinPoint q (.inl (processed.joinPoint q
      (.inr ⟨List.mem_of_getElem? edge, traversal.entered seen enters⟩)))
  refine ⟨?_, by rintro _ ⟨⟩, ?_, ?_, ?_, ?_, ?_⟩
  · intro q member
    rcases stack q member with waits | ⟨fresh, member⟩
    · obtain ⟨reached, unfinished', other⟩ := traversal.waits q waits
      refine ⟨reached, ?_, by rintro ⟨⟩⟩
      rintro (done | rfl)
      · exact unfinished' done
      · exact other rfl
    · refine ⟨new q member, ?_, by rintro ⟨⟩⟩
      rintro (done | rfl)
      · rw [(traversal.done q done).2.1] at fresh
        cases fresh
      · rw [here] at fresh
        cases fresh
  · intro q boundary' visited'
    by_cases old : a.visited q = true
    · rcases traversal.visited q boundary' old with waits | same | done
      · exact .inl (stack' q (.inl waits))
      · exact .inr (.inr (.inr (Option.some.inj same).symm))
      · exact .inr (.inr (.inl done))
    · have member := ((visited q).mp visited').resolve_left old
      exact .inl (stack' q (.inr ⟨Bool.eq_false_iff.mpr old, member⟩))
  · intro q boundary' wide visited'
    rcases (visited (q + 1)).mp visited' with old | member
    · rcases traversal.widened q boundary' wide old with same | done
      · exact .inr (.inr (Option.some.inj same).symm)
      · exact .inr (.inl done)
    · exact absurd (valid.reached_boundary (new (q + 1) member)) (boundary'.not_widened wide)
  · rintro q (done | rfl)
    · obtain ⟨reached, visited', edges⟩ := traversal.done q done
      exact ⟨reached, (visited q).mpr (.inl visited'),
        fun npc member => (visited npc).mpr (.inl (edges npc member))⟩
    · exact ⟨reached, (visited q).mpr (.inl here),
        fun npc member => (visited npc).mpr (.inr member)⟩
  · exact ⟨(visited 0).mpr (.inl traversal.roots.1),
      fun handler member => (visited _).mpr (.inl (traversal.roots.2 handler member))⟩
  · intro q entry entry' different seen seen' enters enters'
    have cases (entry : Method.Entry) (seen : Seen (fun q => finished q ∨ q = pc) entry) :
        Seen finished entry ∨ ∃ i, entry = .edge pc i := by
      cases entry with
      | method => exact .inl trivial
      | handler i => exact .inl trivial
      | edge pc' i =>
          rcases seen with done | rfl
          · exact .inl done
          · exact .inr ⟨i, rfl⟩
    rcases cases entry seen with seen | ⟨i, rfl⟩
    · rcases cases entry' seen' with seen' | ⟨j, rfl⟩
      · exact kept q (traversal.joined q entry entry' different seen seen' enters enters')
      · exact meets q j entry seen enters enters'.2
    · rcases cases entry' seen' with seen' | ⟨j, rfl⟩
      · exact meets q i entry' seen' enters' enters.2
      · have distinct : i ≠ j := fun same => different (by rw [same])
        refine processed'.joinPoint q (.inl ?_)
        rcases Nat.lt_or_gt_of_ne distinct with before | after
        · exact processed.again q i j before enters.2 enters'.2
        · exact processed.again q j i after enters'.2 enters.2

end Traversal

end Analysis

end LaTTe.Bytecodes
