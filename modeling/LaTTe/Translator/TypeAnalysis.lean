import LaTTe.Translator.TypeMap
import LaTTe.Data.Loop

namespace LaTTe.Translator

open LaTTe.Data

/-! The analysis of a flow graph, one region after the other.  A traversal that needs
more calls within each other than it was given returns `none`. -/

/-- The maps at the region headers, the map of the locals with one definition, and the
instructions that have been visited, each with the map it was analysed with. -/
structure Analysis where
  mv2tv : Nat → Option TypeMap
  localVars : Option TypeMap
  visited : List (Nat × TypeMap)

namespace Analysis

variable (st : Analysis)

def isVisited (n : Nat) : Bool :=
  st.visited.any fun entry => entry.1 = n

def visit (n : Nat) (map : TypeMap) : Analysis :=
  { st with visited := (n, map) :: st.visited }

def setMV2TV (n : Nat) (map : TypeMap) : Analysis :=
  { st with mv2tv := Function.update st.mv2tv n (some map) }

def arrive (n : Nat) (map : TypeMap) : Analysis :=
  match st.mv2tv n with
  | some old => st.setMV2TV n (mergeAtJoin old map)
  | none => st.setMV2TV n map

theorem isVisited_iff {n : Nat} :
    st.isVisited n = true ↔ ∃ map, (n, map) ∈ st.visited := by
  simp [isVisited]

theorem arrive_visited (n : Nat) (map : TypeMap) : (st.arrive n map).visited = st.visited := by
  unfold arrive
  split <;> rfl

theorem arrive_localVars (n : Nat) (map : TypeMap) :
    (st.arrive n map).localVars = st.localVars := by
  unfold arrive
  split <;> rfl

theorem arrive_self (n : Nat) (map : TypeMap) :
    ∃ map', (st.arrive n map).mv2tv n = some map' ∧ map'.Below map := by
  unfold arrive
  split
  · exact ⟨_, Function.update_self _ _ _, mergeAtJoin_new _ _⟩
  · exact ⟨_, Function.update_self _ _ _, TypeMap.Below.refl map⟩

theorem arrive_lowers (n : Nat) (map : TypeMap) {k : Nat} {old : TypeMap}
    (known : st.mv2tv k = some old) :
    ∃ map', (st.arrive n map).mv2tv k = some map' ∧ map'.Below old := by
  by_cases same : k = n
  · obtain rfl := same
    unfold arrive
    rw [known]
    exact ⟨_, Function.update_self _ _ _, mergeAtJoin_old _ _⟩
  · refine ⟨old, ?_, TypeMap.Below.refl old⟩
    unfold arrive
    split
    · exact (Function.update_of_ne same _ _).trans known
    · exact (Function.update_of_ne same _ _).trans known

end Analysis

def succOrder : List Nat → List Nat
  | [] => []
  | first :: rest => rest ++ [first]

theorem mem_succOrder {n : Nat} {succs : List Nat} : n ∈ succOrder succs ↔ n ∈ succs := by
  cases succs with
  | nil => exact Iff.rfl
  | cons first rest => simp [succOrder, or_comm]

section

variable (g : FlowGraph)

def traversalCore (traverse : Nat → TypeMap → Analysis → Option Analysis) (n : Nat)
    (map : TypeMap) (st : Analysis) : Option Analysis :=
  (succOrder (g.succs n)).foldlM
    (fun st succ =>
      if g.isRegionEnd succ then some (st.arrive succ map) else traverse succ map st)
    st

def traversal : Nat → Nat → TypeMap → Analysis → Option Analysis
  | 0, _, _, _ => none
  | fuel + 1, n, map, st =>
      traversalCore g (traversal fuel) n ((g.node n).typeAnalysisCore map) (st.visit n map)

/-- `TA_init_traversal`, which also finds the end of the first basic block. -/
def initTraversal : Nat → Nat → TypeMap → Analysis → Option Analysis
  | 0, _, _, _ => none
  | fuel + 1, n, map, st =>
      let st := st.visit n map
      let map := (g.node n).typeAnalysisCore map
      match g.succs n with
      | [] => some st
      | [succ] =>
          if g.isRegionEnd succ then
            some ({ st with localVars := some (g.localVarAnalysis map) }.arrive succ map)
          else
            initTraversal fuel succ map st
      | _ =>
          traversalCore g (traversal g fuel) n map
            { st with localVars := some (g.localVarAnalysis map) }

structure Detection where
  visited : List Nat
  headers : List Nat

/-- `RegAlloc_detect_region_headers`; the header that is found last comes first. -/
def detectRegionHeaders : Nat → Nat → Detection → Option Detection
  | 0, _, _ => none
  | fuel + 1, n, st => do
      let st ← (g.succs n).foldlM
        (fun st succ => if succ ∈ st.visited then some st else detectRegionHeaders fuel succ st)
        { st with visited := n :: st.visited }
      if g.isRegionEnd n then some { st with headers := n :: st.headers } else some st

/-- One round of the loop of `TA_type_analysis` over the region headers. -/
def analyseRegion (fuel : Nat) (st : Analysis) (n : Nat) : Option Analysis := do
  if (g.preds n).all st.isVisited then
    let map ← st.mv2tv n
    traversal g fuel n map st
  else
    let map ← st.localVars
    traversal g fuel n map (st.setMV2TV n map)

def typeAnalysis (fuel : Nat) : Option Analysis := do
  let detection ← detectRegionHeaders g fuel g.head ⟨[], []⟩
  let start : Analysis := ⟨fun _ => none, none, []⟩
  let st ← initTraversal g fuel g.head g.makeInitMap (start.setMV2TV g.head g.makeInitMap)
  detection.headers.foldlM (analyseRegion g fuel) st

end

/-! Traversals. -/

section

variable {g : FlowGraph}

def leaves (g : FlowGraph) (entry : Nat × TypeMap) : TypeMap :=
  (g.node entry.1).typeAnalysisCore entry.2

def Flows (g : FlowGraph) (entry next : Nat × TypeMap) : Prop :=
  next.1 ∈ g.succs entry.1 ∧ next.2 = leaves g entry

def Arrived (st : Analysis) (n : Nat) (map : TypeMap) : Prop :=
  ∃ old, st.mv2tv n = some old ∧ old.Below map

/-- What a traversal adds: entries it is started with and those that follow from them
without passing a join, and maps that arrive at the joins. -/
structure Traversed (g : FlowGraph) (start : Nat × TypeMap → Prop) (st next : Analysis) :
    Prop where
  keeps : ∀ entry ∈ st.visited, entry ∈ next.visited
  lowers : ∀ n map, st.mv2tv n = some map → Arrived next n map
  source : ∀ entry ∈ next.visited, entry ∈ st.visited ∨ start entry ∨
    g.isRegionEnd entry.1 = false ∧ ∃ before ∈ next.visited, Flows g before entry
  arrives : ∀ entry ∈ next.visited, entry ∈ st.visited ∨
    ∀ succ ∈ g.succs entry.1, g.isRegionEnd succ = true → Arrived next succ (leaves g entry)
  localVars : next.localVars = st.localVars

theorem Arrived.lower {start : Nat × TypeMap → Prop} {st next : Analysis} {n : Nat}
    {map : TypeMap} (arrived : Arrived st n map) (traversed : Traversed g start st next) :
    Arrived next n map := by
  obtain ⟨old, known, below⟩ := arrived
  obtain ⟨lower, known', below'⟩ := traversed.lowers n old known
  exact ⟨lower, known', below'.trans below⟩

namespace Traversed

variable {start start' : Nat × TypeMap → Prop} {st middle next : Analysis}

theorem refl (st : Analysis) : Traversed g start st st where
  keeps := fun _ member => member
  lowers := fun _ map known => ⟨map, known, TypeMap.Below.refl map⟩
  source := fun _ member => .inl member
  arrives := fun _ member => .inl member
  localVars := rfl

theorem weaken (traversed : Traversed g start st next)
    (included : ∀ entry, start entry → start' entry) : Traversed g start' st next where
  keeps := traversed.keeps
  lowers := traversed.lowers
  source := fun entry member =>
    (traversed.source entry member).imp_right fun new => new.imp_left (included entry)
  arrives := traversed.arrives
  localVars := traversed.localVars

theorem trans (first : Traversed g start st middle) (second : Traversed g start middle next) :
    Traversed g start st next where
  keeps := fun entry member => second.keeps entry (first.keeps entry member)
  lowers := fun n map known => (first.lowers n map known).lower second
  source := by
    intro entry member
    rcases second.source entry member with before | new
    · rcases first.source entry before with before | starts | ⟨single, from_, inMiddle, flows⟩
      · exact .inl before
      · exact .inr (.inl starts)
      · exact .inr (.inr ⟨single, from_, second.keeps from_ inMiddle, flows⟩)
    · exact .inr new
  arrives := by
    intro entry member
    rcases second.arrives entry member with before | new
    · rcases first.arrives entry before with before | arrived
      · exact .inl before
      · exact .inr fun succ isSucc isEnd => (arrived succ isSucc isEnd).lower second
    · exact .inr new
  localVars := second.localVars.trans first.localVars

theorem arrive (st : Analysis) (n : Nat) (map : TypeMap) :
    Traversed g start st (st.arrive n map) where
  keeps := fun entry member => by rwa [st.arrive_visited]
  lowers := fun _ _ known => st.arrive_lowers n map known
  source := fun entry member => .inl (by rwa [st.arrive_visited] at member)
  arrives := fun entry member => .inl (by rwa [st.arrive_visited] at member)
  localVars := st.arrive_localVars n map

theorem visit {n : Nat} {map : TypeMap}
    (traversed : Traversed g (fun entry => g.isRegionEnd entry.1 = false ∧
      Flows g (n, map) entry) (st.visit n map) next)
    (arrived : ∀ succ ∈ g.succs n, g.isRegionEnd succ = true →
      Arrived next succ (leaves g (n, map))) :
    Traversed g (· = (n, map)) st next where
  keeps := fun entry member => traversed.keeps entry (List.mem_cons_of_mem _ member)
  lowers := traversed.lowers
  source := by
    intro entry member
    rcases traversed.source entry member with before | ⟨single, flows⟩ | new
    · rcases List.mem_cons.mp before with rfl | before
      · exact .inr (.inl rfl)
      · exact .inl before
    · exact .inr (.inr ⟨single, _, traversed.keeps _ List.mem_cons_self, flows⟩)
    · exact .inr (.inr new)
  arrives := by
    intro entry member
    rcases traversed.arrives entry member with before | new
    · rcases List.mem_cons.mp before with rfl | before
      · exact .inr arrived
      · exact .inl before
    · exact .inr new
  localVars := traversed.localVars

end Traversed

theorem traversalCore_traversed {traverse : Nat → TypeMap → Analysis → Option Analysis}
    (each : ∀ n map st next, traverse n map st = some next →
      Traversed g (· = (n, map)) st next)
    {n : Nat} {map : TypeMap} {st next : Analysis}
    (run : traversalCore g traverse n map st = some next) :
    Traversed g (fun entry => g.isRegionEnd entry.1 = false ∧ entry.1 ∈ g.succs n ∧
        entry.2 = map) st next ∧
      ∀ succ ∈ g.succs n, g.isRegionEnd succ = true → Arrived next succ map := by
  have loop := foldlM_run
    (fun done next => Traversed g (fun entry => g.isRegionEnd entry.1 = false ∧
        entry.1 ∈ g.succs n ∧ entry.2 = map) st next ∧
      ∀ succ ∈ done, g.isRegionEnd succ = true → Arrived next succ map)
    ?_ ⟨Traversed.refl st, by simp⟩ run
  · exact ⟨loop.1, fun succ member => loop.2 succ (mem_succOrder.mpr member)⟩
  · intro done succ rest middle last split invariant taken
    obtain ⟨traversed, arrived⟩ := invariant
    have isSucc : succ ∈ g.succs n := by
      rw [← mem_succOrder, split]
      simp
    by_cases isEnd : g.isRegionEnd succ = true
    · rw [if_pos isEnd, Option.some.injEq] at taken
      obtain rfl := taken
      refine ⟨traversed.trans (Traversed.arrive middle succ map), ?_⟩
      intro other member otherEnd
      rcases List.mem_append.mp member with before | now
      · obtain ⟨old, known, below⟩ := arrived other before otherEnd
        obtain ⟨lower, known', below'⟩ := middle.arrive_lowers succ map known
        exact ⟨lower, known', below'.trans below⟩
      · rw [List.mem_singleton.mp now]
        exact middle.arrive_self succ map
    · rw [if_neg isEnd] at taken
      have onward := each succ map middle last taken
      refine ⟨traversed.trans (onward.weaken ?_), ?_⟩
      · rintro entry rfl
        exact ⟨Bool.eq_false_iff.mpr isEnd, isSucc, rfl⟩
      · intro other member otherEnd
        rcases List.mem_append.mp member with before | now
        · exact (arrived other before otherEnd).lower onward
        · rw [List.mem_singleton.mp now] at otherEnd
          exact absurd otherEnd isEnd

theorem traversal_traversed {fuel n : Nat} {map : TypeMap} {st next : Analysis}
    (run : traversal g fuel n map st = some next) : Traversed g (· = (n, map)) st next := by
  induction fuel generalizing n map st next with
  | zero => contradiction
  | succ fuel ih =>
      obtain ⟨traversed, arrived⟩ := traversalCore_traversed (fun _ _ _ _ => ih) run
      exact traversed.visit arrived

/-! The first basic block. -/

/-- The first basic block ends with `last`: there is no other way out, and the types it
ends with were there in the beginning or come from definitions in the block. -/
structure FirstBlock (g : FlowGraph) (start : Nat) (map : TypeMap) (next : Analysis)
    (block : List Nat) (last : Nat × TypeMap) : Prop where
  start_mem : start ∈ block
  last_mem : last ∈ next.visited
  single : ∀ n ∈ block, n = start ∨ g.isRegionEnd n = false
  closed : ∀ n ∈ block, n ≠ last.1 → ∀ succ ∈ g.succs n, succ ∈ block
  typed : ∀ v type, leaves g last v = some type →
    map v = some type ∨ ∃ n ∈ block, g.Defines n v
  localVars : ∀ map, next.localVars = some map → map = g.localVarAnalysis (leaves g last)

theorem FirstBlock.one {n : Nat} {map : TypeMap} {next : Analysis}
    (visited : (n, map) ∈ next.visited)
    (localVars : ∀ map', next.localVars = some map' →
      map' = g.localVarAnalysis (leaves g (n, map))) :
    FirstBlock g n map next [n] (n, map) where
  start_mem := by simp
  last_mem := visited
  single := by simp
  closed := by simp
  typed := fun v type typed =>
    (InstrNode.defines_of_core typed).imp_right fun defines => ⟨n, by simp, defines⟩
  localVars := localVars

theorem FirstBlock.cons {n succ : Nat} {map : TypeMap} {next : Analysis} {block : List Nat}
    {last : Nat × TypeMap} (only : g.succs n = [succ]) (single : g.isRegionEnd succ = false)
    (rest : FirstBlock g succ (leaves g (n, map)) next block last) :
    FirstBlock g n map next (n :: block) last where
  start_mem := by simp
  last_mem := rest.last_mem
  single := by
    intro k member
    rcases List.mem_cons.mp member with rfl | member
    · exact .inl rfl
    · rcases rest.single k member with rfl | other
      · exact .inr single
      · exact .inr other
  closed := by
    intro k member notLast other isSucc
    rcases List.mem_cons.mp member with rfl | member
    · rw [only, List.mem_singleton] at isSucc
      rw [isSucc]
      exact List.mem_cons_of_mem _ rest.start_mem
    · exact List.mem_cons_of_mem _ (rest.closed k member notLast other isSucc)
  typed := by
    intro v type typed
    rcases rest.typed v type typed with before | ⟨k, member, defines⟩
    · exact (InstrNode.defines_of_core before).imp_right fun defines => ⟨n, by simp, defines⟩
    · exact .inr ⟨k, List.mem_cons_of_mem _ member, defines⟩
  localVars := rest.localVars

theorem initTraversal_spec {fuel n : Nat} {map : TypeMap} {st next : Analysis}
    (fresh : st.localVars = none) (run : initTraversal g fuel n map st = some next) :
    Traversed g (· = (n, map)) { st with localVars := next.localVars } next ∧
      ∃ block last, FirstBlock g n map next block last := by
  induction fuel generalizing n map st next with
  | zero => contradiction
  | succ fuel ih =>
      rw [initTraversal] at run
      -- the analysis of `n` ends the first basic block, with what `next` says about the locals
      have ended : Traversed g (fun entry => g.isRegionEnd entry.1 = false ∧
            Flows g (n, map) entry)
            { st.visit n map with localVars := some (g.localVarAnalysis (leaves g (n, map))) }
            next →
          (∀ succ ∈ g.succs n, g.isRegionEnd succ = true →
            Arrived next succ (leaves g (n, map))) →
          Traversed g (· = (n, map)) { st with localVars := next.localVars } next ∧
            ∃ block last, FirstBlock g n map next block last := by
        intro traversed arrived
        have visited := traversed.keeps (n, map) List.mem_cons_self
        have same : next.localVars = some (g.localVarAnalysis (leaves g (n, map))) :=
          traversed.localVars
        rw [← same] at traversed
        refine ⟨traversed.visit arrived, [n], (n, map), .one visited ?_⟩
        intro map' known
        rw [same] at known
        exact (Option.some.inj known).symm
      split at run
      · -- the method ends here
        rename_i nothing
        obtain rfl := Option.some.inj run
        have visited : Traversed g (· = (n, map)) st (st.visit n map) :=
          (Traversed.refl _).visit (by simp [nothing])
        have same : (st.visit n map).localVars = none := fresh
        rw [same, ← fresh]
        refine ⟨visited, [n], (n, map), .one List.mem_cons_self ?_⟩
        intro map' known
        rw [same] at known
        contradiction
      · rename_i succ only
        by_cases isEnd : g.isRegionEnd succ = true
        · rw [if_pos isEnd, Option.some.injEq] at run
          obtain rfl := run
          refine ended (Traversed.arrive _ succ _) ?_
          intro other isSucc _
          rw [only, List.mem_singleton] at isSucc
          rw [isSucc]
          exact Analysis.arrive_self _ succ _
        · rw [if_neg isEnd] at run
          have single := Bool.eq_false_iff.mpr isEnd
          have stillFresh : (st.visit n map).localVars = none := fresh
          obtain ⟨traversed, block, last, first⟩ := ih stillFresh run
          refine ⟨?_, n :: block, last, first.cons only single⟩
          refine Traversed.visit (traversed.weaken ?_) ?_
          · rintro entry rfl
            exact ⟨single, by simp [only], rfl⟩
          · intro other isSucc otherEnd
            rw [only, List.mem_singleton] at isSucc
            rw [isSucc] at otherEnd
            exact absurd otherEnd isEnd
      · obtain ⟨traversed, arrived⟩ :=
          traversalCore_traversed (fun _ _ _ _ => traversal_traversed) run
        exact ended traversed arrived

/-! The region headers. -/

structure Detects (g : FlowGraph) (st next : Detection) : Prop where
  keeps : ∀ n ∈ st.visited, n ∈ next.visited
  headers : ∃ new, next.headers = new ++ st.headers ∧ new.Nodup ∧
    ∀ n ∈ new, n ∈ next.visited ∧ n ∉ st.visited ∧ g.isRegionEnd n = true

namespace Detects

variable {st middle next : Detection}

theorem refl (st : Detection) : Detects g st st :=
  ⟨fun _ member => member, [], by simp⟩

theorem trans (first : Detects g st middle) (second : Detects g middle next) :
    Detects g st next := by
  obtain ⟨earlier, headers, distinct, each⟩ := first.headers
  obtain ⟨later, headers', distinct', each'⟩ := second.headers
  refine ⟨fun n member => second.keeps n (first.keeps n member), later ++ earlier, ?_, ?_, ?_⟩
  · rw [headers', headers, List.append_assoc]
  · refine List.nodup_append.mpr ⟨distinct', distinct, ?_⟩
    rintro n isLater m isEarlier rfl
    exact (each' n isLater).2.1 (each n isEarlier).1
  · intro n member
    rcases List.mem_append.mp member with isLater | isEarlier
    · obtain ⟨visited, fresh, isEnd⟩ := each' n isLater
      exact ⟨visited, fun before => fresh (first.keeps n before), isEnd⟩
    · obtain ⟨visited, fresh, isEnd⟩ := each n isEarlier
      exact ⟨second.keeps n visited, fresh, isEnd⟩

theorem below {n : Nat} (fresh : n ∉ st.visited)
    (detects : Detects g { st with visited := n :: st.visited } next) :
    Detects g st
      (if g.isRegionEnd n then { next with headers := n :: next.headers } else next) := by
  obtain ⟨new, headers, distinct, each⟩ := detects.headers
  have own := detects.keeps n List.mem_cons_self
  have keeps : ∀ k ∈ st.visited, k ∈ next.visited :=
    fun k member => detects.keeps k (List.mem_cons_of_mem _ member)
  have earlier : ∀ k ∈ new, k ∈ next.visited ∧ k ∉ st.visited ∧ g.isRegionEnd k = true := by
    intro k member
    obtain ⟨visited, notYet, isEnd⟩ := each k member
    exact ⟨visited, fun before => notYet (List.mem_cons_of_mem _ before), isEnd⟩
  split
  · rename_i isEnd
    refine ⟨keeps, n :: new, by simp [headers], List.nodup_cons.mpr ⟨?_, distinct⟩, ?_⟩
    · intro member
      exact (each n member).2.1 List.mem_cons_self
    · intro k member
      rcases List.mem_cons.mp member with rfl | member
      · exact ⟨own, fresh, isEnd⟩
      · exact earlier k member
  · exact ⟨keeps, new, headers, distinct, earlier⟩

end Detects

theorem detectRegionHeaders_detects {fuel n : Nat} {st next : Detection}
    (fresh : n ∉ st.visited) (run : detectRegionHeaders g fuel n st = some next) :
    Detects g st next := by
  induction fuel generalizing n st next with
  | zero => contradiction
  | succ fuel ih =>
      rw [detectRegionHeaders, Option.bind_eq_bind, Option.bind_eq_some_iff] at run
      obtain ⟨last, loop, result⟩ := run
      have children := foldlM_run
        (fun _ last => Detects g { st with visited := n :: st.visited } last) ?_
        (Detects.refl _) loop
      · have found := Detects.below fresh children
        split at result
        · rename_i isEnd
          rw [if_pos isEnd, Option.some.inj result] at found
          exact found
        · rename_i isEnd
          rw [if_neg isEnd, Option.some.inj result] at found
          exact found
      · intro _ succ _ middle last' _ detects taken
        split at taken
        · rw [← Option.some.inj taken]
          exact detects
        · rename_i notYet
          exact detects.trans (ih notYet taken)

/-! The analysis of all regions. -/

inductive Sourced (g : FlowGraph) (st : Analysis) (entry : Nat × TypeMap) : Prop where
  | head (equal : entry = (g.head, g.makeInitMap))
  | inner (before : Nat × TypeMap) (single : g.isRegionEnd entry.1 = false)
      (visited : before ∈ st.visited) (flows : Flows g before entry)
  | localVars (isEnd : g.isRegionEnd entry.1 = true) (equal : st.localVars = some entry.2)
  | join (isEnd : g.isRegionEnd entry.1 = true)
      (covered : ∀ p, entry.1 ∈ g.succs p →
        ∃ map, (p, map) ∈ st.visited ∧ entry.2.Below (leaves g (p, map)))

theorem Sourced.keep {st next : Analysis} {entry : Nat × TypeMap}
    (keeps : ∀ entry ∈ st.visited, entry ∈ next.visited)
    (same : next.localVars = st.localVars) (sourced : Sourced g st entry) :
    Sourced g next entry := by
  cases sourced with
  | head equal => exact .head equal
  | inner before single visited flows => exact .inner before single (keeps before visited) flows
  | localVars isEnd equal => exact .localVars isEnd (same.trans equal)
  | join isEnd covered =>
      refine .join isEnd fun p isPred => ?_
      obtain ⟨map, visited, below⟩ := covered p isPred
      exact ⟨map, keeps _ visited, below⟩

structure RegionsDone (g : FlowGraph) (done : List Nat) (st : Analysis) : Prop where
  sourced : ∀ entry ∈ st.visited, Sourced g st entry
  arrived : ∀ entry ∈ st.visited, ∀ succ ∈ g.succs entry.1, g.isRegionEnd succ = true →
    Arrived st succ (leaves g entry) ∨ succ ∈ done
  headers : ∀ entry ∈ st.visited, g.isRegionEnd entry.1 = true → entry.1 ∈ done

theorem RegionsDone.region {done : List Nat} {n : Nat} {map : TypeMap} {st base next : Analysis}
    (regions : RegionsDone g done st) (sourced : Sourced g st (n, map))
    (visited : base.visited = st.visited) (localVars : base.localVars = st.localVars)
    (arrived : ∀ succ map, Arrived st succ map → succ ≠ n → Arrived base succ map)
    (traversed : Traversed g (· = (n, map)) base next) :
    RegionsDone g (done ++ [n]) next := by
  have keeps : ∀ entry ∈ st.visited, entry ∈ next.visited :=
    fun entry member => traversed.keeps entry (by rwa [visited])
  have same : next.localVars = st.localVars := traversed.localVars.trans localVars
  refine ⟨?_, ?_, ?_⟩
  · intro entry member
    rcases traversed.source entry member with before | rfl | ⟨single, before, inNext, flows⟩
    · rw [visited] at before
      exact (regions.sourced entry before).keep keeps same
    · exact sourced.keep keeps same
    · exact .inner before single inNext flows
  · intro entry member succ isSucc isEnd
    rcases traversed.arrives entry member with before | new
    · rw [visited] at before
      rcases regions.arrived entry before succ isSucc isEnd with known | isDone
      · by_cases own : succ = n
        · exact .inr (by simp [own])
        · exact .inl ((arrived succ _ known own).lower traversed)
      · exact .inr (by simp [isDone])
    · exact .inl (new succ isSucc isEnd)
  · intro entry member isEnd
    rcases traversed.source entry member with before | rfl | ⟨single, _⟩
    · rw [visited] at before
      exact List.mem_append_left _ (regions.headers entry before isEnd)
    · simp
    · rw [single] at isEnd
      contradiction

theorem analyseRegion_done {fuel : Nat} {done : List Nat} {n : Nat} {st next : Analysis}
    (regions : RegionsDone g done st) (isEnd : g.isRegionEnd n = true) (fresh : n ∉ done)
    (run : analyseRegion g fuel st n = some next) :
    RegionsDone g (done ++ [n]) next ∧ next.localVars = st.localVars ∧
      ∀ entry ∈ st.visited, entry ∈ next.visited := by
  unfold analyseRegion at run
  split at run
  · rename_i allVisited
    rw [Option.bind_eq_bind, Option.bind_eq_some_iff] at run
    obtain ⟨map, known, run⟩ := run
    have traversed := traversal_traversed run
    refine ⟨regions.region (.join isEnd ?_) rfl rfl (fun _ _ arrived _ => arrived) traversed,
      traversed.localVars, traversed.keeps⟩
    intro p isPred
    have isVisited := List.all_eq_true.mp allVisited p (g.mem_preds.mpr isPred)
    obtain ⟨map', visited⟩ := st.isVisited_iff.mp isVisited
    rcases regions.arrived _ visited n isPred isEnd with ⟨old, known', below⟩ | isDone
    · obtain rfl : map = old := Option.some.inj (known.symm.trans known')
      exact ⟨map', visited, below⟩
    · exact absurd isDone fresh
  · rw [Option.bind_eq_bind, Option.bind_eq_some_iff] at run
    obtain ⟨map, known, run⟩ := run
    have traversed := traversal_traversed run
    have others : ∀ succ map', Arrived st succ map' → succ ≠ n →
        Arrived (st.setMV2TV n map) succ map' := by
      intro succ map' arrived apart
      obtain ⟨old, known, below⟩ := arrived
      exact ⟨old, (Function.update_of_ne apart _ _).trans known, below⟩
    have visited : (st.setMV2TV n map).visited = st.visited := rfl
    exact ⟨regions.region (.localVars isEnd known) visited rfl others traversed,
      traversed.localVars, traversed.keeps⟩

structure Analysed (g : FlowGraph) (st : Analysis) : Prop where
  sourced : ∀ entry ∈ st.visited, Sourced g st entry
  firstBlock : ∃ block last, FirstBlock g g.head g.makeInitMap st block last

theorem typeAnalysis_analysed {fuel : Nat} {st : Analysis}
    (notEnd : g.isRegionEnd g.head = false) (run : typeAnalysis g fuel = some st) :
    Analysed g st := by
  unfold typeAnalysis at run
  simp only [Option.bind_eq_bind, Option.bind_eq_some_iff] at run
  obtain ⟨detection, detected, first, initial, loop⟩ := run
  obtain ⟨new, headers, distinct, each⟩ :=
    (detectRegionHeaders_detects (by simp) detected).headers
  rw [List.append_nil] at headers
  obtain ⟨traversed, block, last, firstBlock⟩ := initTraversal_spec rfl initial
  have start : RegionsDone g [] first := by
    refine ⟨?_, ?_, ?_⟩
    · intro entry member
      rcases traversed.source entry member with before | rfl | ⟨single, before, visited, flows⟩
      · contradiction
      · exact .head rfl
      · exact .inner before single visited flows
    · intro entry member succ isSucc isEnd
      rcases traversed.arrives entry member with before | new
      · contradiction
      · exact .inl (new succ isSucc isEnd)
    · intro entry member isEnd
      rcases traversed.source entry member with before | rfl | ⟨single, _⟩
      · contradiction
      · rw [notEnd] at isEnd
        contradiction
      · rw [single] at isEnd
        contradiction
  have all := foldlM_run
    (fun done st => RegionsDone g done st ∧ st.localVars = first.localVars ∧
      ∀ entry ∈ first.visited, entry ∈ st.visited) ?_ ⟨start, rfl, fun _ member => member⟩ loop
  · obtain ⟨regions, same, keeps⟩ := all
    refine ⟨regions.sourced, block, last, { firstBlock with
      last_mem := keeps last firstBlock.last_mem
      localVars := fun map known => firstBlock.localVars map (same.symm.trans known) }⟩
  · intro done n rest middle next split invariant taken
    obtain ⟨regions, same, keeps⟩ := invariant
    rw [headers] at split
    rw [split] at distinct each
    have fresh : n ∉ done := by
      intro member
      exact (List.nodup_append.mp distinct).2.2 n member n List.mem_cons_self rfl
    obtain ⟨regions', same', keeps'⟩ :=
      analyseRegion_done regions (each n (by simp)).2.2 fresh taken
    exact ⟨regions', same'.trans same, fun entry member => keeps' entry (keeps entry member)⟩

end

end LaTTe.Translator
