import LaTTe.Data.LinkGraph

namespace LaTTe.Translator.GraphEdit

open LaTTe.Data

/-! The edits of a control flow graph.  An instruction is its address. -/

variable {α : Type} [DecidableEq α]

namespace Links

variable (g : LinkGraph α)

def addPred (instr pred : α) : LinkGraph α :=
  { g with preds := Function.update g.preds instr (g.preds instr ++ [pred]) }

def addSucc (instr succ : α) : LinkGraph α :=
  { g with succs := Function.update g.succs instr (g.succs instr ++ [succ]) }

/-- The old predecessor is what `Instr_SetPred` returns. -/
def setPred (instr : α) (index : Nat) (pred : α) : Option (LinkGraph α × α) :=
  (g.preds instr)[index]?.map fun old =>
    ({ g with preds := Function.update g.preds instr ((g.preds instr).set index pred) }, old)

def setSucc (instr : α) (index : Nat) (succ : α) : Option (LinkGraph α × α) :=
  (g.succs instr)[index]?.map fun old =>
    ({ g with succs := Function.update g.succs instr ((g.succs instr).set index succ) }, old)

/-- There is no index where the source has `-1`, which no list has a place for. -/
def getPredIndex (instr pred : α) : Option Nat :=
  (g.preds instr).idxOf? pred

def getSuccIndex (instr succ : α) : Option Nat :=
  (g.succs instr).idxOf? succ

def replacePred (instr old new : α) : Option (LinkGraph α) := do
  let index ← getPredIndex g instr old
  let (g, _) ← setPred g instr index new
  some g

def replaceSucc (instr old new : α) : Option (LinkGraph α) := do
  let index ← getSuccIndex g instr old
  let (g, _) ← setSucc g instr index new
  some g

/-- The loop over the predecessors of `instr` that follow the first one.  It reads
`numOfPredecessors` anew for each. -/
def passPreds (instr succ : α) : Nat → Nat → LinkGraph α → Option (LinkGraph α)
  | 0, _, _ => none
  | fuel + 1, i, g =>
      match (g.preds instr)[i]? with
      | none => some g
      | some pred => do
          let g ← replaceSucc g pred instr succ
          passPreds instr succ fuel (i + 1) (addPred g succ pred)

/-- What `CFG_RemoveInstr` and `CFG_RemoveBranch` do alike: the predecessors of `instr`
go on to `succ`. -/
def passAll (fuel : Nat) (instr succ : α) : Option (LinkGraph α) := do
  let pred ← (g.preds instr)[0]?
  let g ← replaceSucc g pred instr succ
  let g ← replacePred g succ instr pred
  passPreds instr succ fuel 1 g

def removeAllPreds (instr : α) : LinkGraph α :=
  { g with preds := Function.update g.preds instr [] }

def removeAllSuccs (instr : α) : LinkGraph α :=
  { g with succs := Function.update g.succs instr [] }

end Links

/-- The `CFG`, with the fields of its instructions.  `instrList` is the part of the array
that is in use. -/
structure Cfg (α : Type) where
  links : LinkGraph α
  loopHeader : α → Bool
  hMap : α → Option Nat
  needMapInfo : α → Bool
  arrayIndex : α → Int
  instrList : List (Option α)
  maxSizeOfList : Nat
  numOfNodes : Int
  numOfMapNeedInstrs : Int

namespace Cfg

variable (cfg : Cfg α)

def registerInstr (instr : α) : Cfg α :=
  { cfg with
    numOfNodes := cfg.numOfNodes + 1
    maxSizeOfList :=
      if cfg.maxSizeOfList ≤ cfg.instrList.length then cfg.maxSizeOfList * 2
      else cfg.maxSizeOfList
    arrayIndex := Function.update cfg.arrayIndex instr cfg.instrList.length
    instrList := cfg.instrList ++ [some instr] }

def deregisterInstr (instr : α) : Option (Cfg α) :=
  if 0 ≤ cfg.arrayIndex instr ∧ cfg.arrayIndex instr < cfg.maxSizeOfList then
    some { cfg with
      instrList := cfg.instrList.set (cfg.arrayIndex instr).toNat none
      numOfNodes := cfg.numOfNodes - 1
      numOfMapNeedInstrs :=
        if cfg.needMapInfo instr then cfg.numOfMapNeedInstrs - 1 else cfg.numOfMapNeedInstrs }
  else
    none

def passLoopHeader (instr succ : α) : Cfg α :=
  if cfg.loopHeader instr then
    { cfg with loopHeader := Function.update cfg.loopHeader succ true }
  else
    cfg

/-- `CFG_RemoveInstr`; no caller is without a `cfg`. -/
def removeInstr (fuel : Nat) (instr : α) : Option (Cfg α) := do
  guard ((cfg.links.succs instr).length = 1 ∧ (cfg.links.preds instr).length ≠ 0)
  let succ ← (cfg.links.succs instr)[0]?
  let pred ← (cfg.links.preds instr)[0]?
  guard (succ ≠ instr ∧ pred ≠ instr)
  let links ← Links.passAll cfg.links fuel instr succ
  let cfg := { cfg with links := links }.passLoopHeader instr succ
  let links := Links.removeAllPreds (Links.removeAllSuccs cfg.links instr) instr
  deregisterInstr { cfg with links := links } instr

def removeBranch (fuel : Nat) (instr : α) (succIndex : Nat) : Option (Cfg α) := do
  guard ((cfg.links.preds instr).length ≠ 0)
  let succ ← (cfg.links.succs instr)[succIndex]?
  let links ← Links.passAll cfg.links fuel instr succ
  let cfg := { cfg with links := links }.passLoopHeader instr succ
  some { cfg with links := Links.removeAllPreds cfg.links instr }

def insertInstrAsSucc (instr : α) (succIndex : Nat) (newInstr : α) : Option (Cfg α) := do
  let (links, oldSucc) ← Links.setSucc cfg.links instr succIndex newInstr
  let links := Links.addPred links newInstr instr
  let links ← Links.replacePred links oldSucc instr newInstr
  let links := Links.addSucc links newInstr oldSucc
  some (registerInstr { cfg with links := links } newInstr)

/-- `newInstr` takes the map of `instr`, if there is one. -/
def passH (instr newInstr : α) : Cfg α :=
  match cfg.hMap instr with
  | none => cfg
  | some map =>
      { cfg with
        hMap := Function.update (Function.update cfg.hMap newInstr (some map)) instr none }

/-- `newInstr` takes the array of the predecessors of `instr`, which gets a new one. -/
def passPredecessors (instr newInstr : α) (links : LinkGraph α) : LinkGraph α :=
  { links with
    preds := Function.update (Function.update links.preds newInstr (links.preds instr)) instr
      [newInstr] }

def insertInstrAsSinglePred (instr newInstr : α) : Option (Cfg α) := do
  let links ← (cfg.links.preds instr).foldlM
    (fun links pred => Links.replaceSucc links pred instr newInstr) cfg.links
  let cfg := { cfg with links := passPredecessors instr newInstr links }.passH instr newInstr
  let links := Links.addSucc cfg.links newInstr instr
  some (registerInstr { cfg with links := links } newInstr)

end Cfg

inductive Edit (α : Type) where
  | removeInstr (instr : α)
  | removeBranch (instr : α) (succIndex : Nat)
  | insertInstrAsSucc (instr : α) (succIndex : Nat) (newInstr : α)
  | insertInstrAsSinglePred (instr newInstr : α)
  deriving DecidableEq

namespace Cfg

def exec (fuel : Nat) (cfg : Cfg α) : Edit α → Option (Cfg α)
  | .removeInstr instr => cfg.removeInstr fuel instr
  | .removeBranch instr succIndex => cfg.removeBranch fuel instr succIndex
  | .insertInstrAsSucc instr succIndex newInstr =>
      cfg.insertInstrAsSucc instr succIndex newInstr
  | .insertInstrAsSinglePred instr newInstr => cfg.insertInstrAsSinglePred instr newInstr

end Cfg

namespace Edit

def removed : Edit α → Option α
  | .removeInstr instr => some instr
  | .removeBranch instr _ => some instr
  | .insertInstrAsSucc .. => none
  | .insertInstrAsSinglePred .. => none

/-- Where an edge goes after the edit that went to `succ` from place `index` of `pred`. -/
def target (cfg : Cfg α) (pred : α) (index : Nat) (succ : α) : Edit α → α
  | .removeInstr instr =>
      if succ = instr then (cfg.links.succs instr).headD succ else succ
  | .removeBranch instr succIndex =>
      if succ = instr then (cfg.links.succs instr).getD succIndex succ else succ
  | .insertInstrAsSucc instr succIndex newInstr =>
      if pred = instr ∧ index = succIndex then newInstr else succ
  | .insertInstrAsSinglePred instr newInstr => if succ = instr then newInstr else succ

end Edit

/-! The primitives and the lists of the graph. -/

theorem set_of_idxOf?_eq_some {items : List α} {old : α} {index : Nat}
    (found : items.idxOf? old = some index) (new : α) :
    items.set index new = items.replace old new := by
  induction items generalizing index with
  | nil => cases found
  | cons first rest ih =>
      rw [List.idxOf?_cons] at found
      split at found
      · rename_i same
        obtain rfl : first = old := by simpa using same
        cases found
        rw [List.replace_cons_self, List.set_cons_zero]
      · rename_i differs
        obtain ⟨before, earlier, rfl⟩ := Option.map_eq_some_iff.mp found
        rw [replace_cons_of_ne (by simpa using differs), List.set_cons_succ, ih earlier]

theorem length_replaceFirst (lists : α → List α) (key old new other : α) :
    (replaceFirst lists key old new other).length = (lists other).length := by
  rw [replaceFirst, Function.update_apply]
  split
  · rename_i same
    rw [List.length_replace, same]
  · rfl

theorem count_le_replaceFirst {lists : α → List α} {pred old new : α} {rest : List α}
    (differs : new ≠ old) (bound : ∀ p, (pred :: rest).count p ≤ (lists p).count old) :
    old ∈ lists pred ∧ ∀ p, rest.count p ≤ (replaceFirst lists pred old new p).count old := by
  have listed : old ∈ lists pred := by
    have atPred := bound pred
    rw [List.count_cons_self] at atPred
    exact List.count_pos_iff.mp (Nat.lt_of_lt_of_le (Nat.succ_pos _) atPred)
  refine ⟨listed, fun p => ?_⟩
  have atP := bound p
  by_cases same : p = pred
  · subst same
    have replaced := @count_replace _ _ _ _ new old listed
    simp only [beq_self_eq_true, if_true, beq_eq_false_iff_ne.mpr differs, Bool.false_eq_true,
      if_false] at replaced
    rw [List.count_cons_self] at atP
    rw [replaceFirst, Function.update_self]
    omega
  · rw [List.count_cons_of_ne (Ne.symm same)] at atP
    rw [replaceFirst, Function.update_of_ne same]
    exact atP

namespace Links

variable {g next : LinkGraph α}

theorem replaceSucc_of_mem {instr old : α} (listed : old ∈ g.succs instr) (new : α) :
    replaceSucc g instr old new =
      some { g with succs := replaceFirst g.succs instr old new } := by
  obtain ⟨index, found⟩ := Option.isSome_iff_exists.mp (List.isSome_idxOf?.mpr listed)
  obtain ⟨inside, _⟩ := List.idxOf?_eq_some_iff.mp found
  simp [replaceSucc, getSuccIndex, setSucc, found, inside, set_of_idxOf?_eq_some found,
    replaceFirst]

theorem replacePred_of_mem {instr old : α} (listed : old ∈ g.preds instr) (new : α) :
    replacePred g instr old new =
      some { g with preds := replaceFirst g.preds instr old new } := by
  obtain ⟨index, found⟩ := Option.isSome_iff_exists.mp (List.isSome_idxOf?.mpr listed)
  obtain ⟨inside, _⟩ := List.idxOf?_eq_some_iff.mp found
  simp [replacePred, getPredIndex, setPred, found, inside, set_of_idxOf?_eq_some found,
    replaceFirst]

theorem replaceSucc_eq_some {instr old new : α} (replaced : replaceSucc g instr old new = some next) :
    old ∈ g.succs instr ∧ next = { g with succs := replaceFirst g.succs instr old new } := by
  have listed : old ∈ g.succs instr := by
    by_contra absent
    have missing : getSuccIndex g instr old = none := List.idxOf?_eq_none_iff.mpr absent
    simp [replaceSucc, missing] at replaced
  rw [replaceSucc_of_mem listed] at replaced
  exact ⟨listed, (Option.some.inj replaced).symm⟩

theorem replacePred_eq_some {instr old new : α} (replaced : replacePred g instr old new = some next) :
    old ∈ g.preds instr ∧ next = { g with preds := replaceFirst g.preds instr old new } := by
  have listed : old ∈ g.preds instr := by
    by_contra absent
    have missing : getPredIndex g instr old = none := List.idxOf?_eq_none_iff.mpr absent
    simp [replacePred, missing] at replaced
  rw [replacePred_of_mem listed] at replaced
  exact ⟨listed, (Option.some.inj replaced).symm⟩

@[simp] theorem preds_removeAllPreds (g : LinkGraph α) (instr other : α) :
    (removeAllPreds g instr).preds other = if other = instr then [] else g.preds other :=
  Function.update_apply ..

@[simp] theorem succs_removeAllPreds (g : LinkGraph α) (instr : α) :
    (removeAllPreds g instr).succs = g.succs :=
  rfl

theorem addPred_replaceFirst (instr succ pred : α) :
    addPred { g with succs := replaceFirst g.succs pred instr succ } succ pred =
      LinkGraph.pass instr succ g pred :=
  rfl

theorem passPreds_eq_some {instr succ : α} (moves : succ ≠ instr) {fuel i : Nat}
    (passed : passPreds instr succ fuel i g = some next) :
    next = ((g.preds instr).drop i).foldl (LinkGraph.pass instr succ) g := by
  induction fuel generalizing i g with
  | zero => cases passed
  | succ fuel ih =>
      rw [passPreds] at passed
      cases at_i : (g.preds instr)[i]? with
      | none =>
          rw [at_i] at passed
          cases passed
          rw [List.drop_eq_nil_of_le (List.getElem?_eq_none_iff.mp at_i), List.foldl_nil]
      | some pred =>
          rw [at_i] at passed
          obtain ⟨replaced, found, rest⟩ := Option.bind_eq_some_iff.mp passed
          obtain ⟨_, rfl⟩ := replaceSucc_eq_some found
          rw [addPred_replaceFirst] at rest
          obtain ⟨inside, rfl⟩ := List.getElem?_eq_some_iff.mp at_i
          have kept : (LinkGraph.pass instr succ g (g.preds instr)[i]).preds instr =
              g.preds instr := Function.update_of_ne moves.symm ..
          rw [ih rest, kept, List.drop_eq_getElem_cons inside, List.foldl_cons]

/-- The loop comes to its end when the predecessors that it has left list `instr` often
enough. -/
theorem passPreds_returns {instr succ : α} (moves : succ ≠ instr) {fuel i : Nat}
    (listed : ∀ p, ((g.preds instr).drop i).count p ≤ (g.succs p).count instr)
    (enough : ((g.preds instr).drop i).length < fuel) :
    ∃ next, passPreds instr succ fuel i g = some next := by
  induction fuel generalizing i g with
  | zero => contradiction
  | succ fuel ih =>
      rw [passPreds]
      cases at_i : (g.preds instr)[i]? with
      | none => exact ⟨g, rfl⟩
      | some pred =>
          obtain ⟨inside, here⟩ := List.getElem?_eq_some_iff.mp at_i
          rw [List.drop_eq_getElem_cons inside, here] at listed enough
          obtain ⟨first, left⟩ := count_le_replaceFirst moves listed
          have kept : (LinkGraph.pass instr succ g pred).preds instr = g.preds instr :=
            Function.update_of_ne moves.symm ..
          simp only [replaceSucc_of_mem first, Option.bind_eq_bind, Option.bind_some,
            addPred_replaceFirst]
          apply ih
          · rw [kept]
            exact left
          · rw [kept]
            simpa using enough

theorem passPreds_self {instr : α} {fuel i : Nat} (inside : i < (g.preds instr).length) :
    passPreds instr instr fuel i g = none := by
  induction fuel generalizing i g with
  | zero => rfl
  | succ fuel ih =>
      rw [passPreds, List.getElem?_eq_getElem inside]
      apply Option.bind_eq_none_iff.mpr
      intro replaced found
      obtain ⟨_, rfl⟩ := replaceSucc_eq_some found
      apply ih
      simpa [addPred] using inside

structure Passed (g : LinkGraph α) (instr succ : α) (next : LinkGraph α) : Prop where
  succs : ∀ p, next.succs p = redirect instr succ (g.succs p)
  preds : ∀ s p, (next.preds s).count p + (if s = succ ∧ p = instr then 1 else 0) =
    (g.preds s).count p + (if s = succ then (g.preds instr).count p else 0)

theorem passAll_eq_some {instr succ pred : α} {others : List α} (moves : succ ≠ instr)
    (preds : g.preds instr = pred :: others) {fuel : Nat}
    (passed : passAll g fuel instr succ = some next) :
    instr ∈ g.preds succ ∧ next = others.foldl (LinkGraph.pass instr succ)
      ⟨replaceFirst g.succs pred instr succ, replaceFirst g.preds succ instr pred⟩ := by
  simp only [passAll, preds, List.getElem?_cons_zero, Option.bind_eq_bind,
    Option.bind_some] at passed
  obtain ⟨entered, first, passed⟩ := Option.bind_eq_some_iff.mp passed
  obtain ⟨_, rfl⟩ := replaceSucc_eq_some first
  obtain ⟨placed, second, passed⟩ := Option.bind_eq_some_iff.mp passed
  obtain ⟨listed, rfl⟩ := replacePred_eq_some second
  have kept : replaceFirst g.preds succ instr pred instr = pred :: others := by
    rw [← preds]
    exact Function.update_of_ne moves.symm ..
  have final := passPreds_eq_some moves passed
  simp only [kept, List.drop_succ_cons, List.drop_zero] at final
  exact ⟨listed, final⟩

theorem passAll_passed (mirrored : g.Mirrored) {instr succ : α} (moves : succ ≠ instr)
    {fuel : Nat} (passed : passAll g fuel instr succ = some next) : Passed g instr succ next := by
  cases preds : g.preds instr with
  | nil => simp [passAll, preds] at passed
  | cons pred others =>
      obtain ⟨listed, rfl⟩ := passAll_eq_some moves preds passed
      constructor
      · intro p
        rw [← iterate_replace _ moves, mirrored, preds]
        have folded := LinkGraph.succs_foldl_pass instr succ (pred :: others) g p
        rw [List.foldl_cons, LinkGraph.succs_foldl_pass] at folded
        rw [LinkGraph.succs_foldl_pass, ← folded]
        rfl
      · intro s p
        rw [LinkGraph.preds_foldl_pass]
        by_cases atSucc : s = succ
        · subst atSucc
          have replaced := @count_replace _ _ _ _ pred p listed
          simp only [replaceFirst, Function.update_self, List.count_append, preds,
            List.count_cons, true_and, if_true, eq_comm (a := p), beq_iff_eq] at replaced ⊢
          omega
        · simp [replaceFirst, atSucc]

theorem passAll_returns (mirrored : g.Mirrored) {instr succ : α} (moves : succ ≠ instr)
    (listed : succ ∈ g.succs instr) {fuel : Nat} (entered : g.preds instr ≠ [])
    (enough : (g.preds instr).length ≤ fuel) :
    ∃ next, passAll g fuel instr succ = some next := by
  obtain ⟨pred, others, preds⟩ := List.exists_cons_of_ne_nil entered
  obtain ⟨first, left⟩ := count_le_replaceFirst moves fun p => by
    rw [← preds]
    exact Nat.le_of_eq (mirrored p instr).symm
  simp only [passAll, preds, List.getElem?_cons_zero, Option.bind_eq_bind, Option.bind_some,
    replaceSucc_of_mem first]
  rw [replacePred_of_mem (g := ⟨replaceFirst g.succs pred instr succ, g.preds⟩)
    (mirrored.mem_iff.mp listed), Option.bind_some]
  have kept : replaceFirst g.preds succ instr pred instr = pred :: others := by
    rw [← preds]
    exact Function.update_of_ne moves.symm ..
  apply passPreds_returns moves
  · simp only [kept]
    exact left
  · simp only [kept]
    rw [preds] at enough
    exact enough

theorem foldlM_replaceSucc (mirrored : g.Mirrored) {instr newInstr : α} (other : newInstr ≠ instr) :
    (g.preds instr).foldlM (fun links pred => replaceSucc links pred instr newInstr) g =
      some { g with succs := fun p => redirect instr newInstr (g.succs p) } := by
  have turns : ∀ (others : List α) (links : LinkGraph α),
      (∀ p, others.count p ≤ (links.succs p).count instr) →
      others.foldlM (fun links pred => replaceSucc links pred instr newInstr) links =
        some { links with
          succs := fun p =>
            (fun list : List α => list.replace instr newInstr)^[others.count p]
              (links.succs p) } := by
    intro others
    induction others with
    | nil =>
        intro links _
        rfl
    | cons pred others ih =>
        intro links listed
        obtain ⟨first, left⟩ := count_le_replaceFirst other listed
        rw [List.foldlM_cons, replaceSucc_of_mem first, Option.bind_eq_bind, Option.bind_some,
          ih _ left]
        congr 2
        funext p
        by_cases same : p = pred
        · subst same
          rw [List.count_cons_self, Function.iterate_succ_apply]
          simp only [replaceFirst, Function.update_self]
        · rw [List.count_cons_of_ne (Ne.symm same)]
          simp only [replaceFirst, Function.update_of_ne same]
  rw [turns _ g fun p => Nat.le_of_eq (mirrored p instr).symm]
  congr 2
  funext p
  rw [← mirrored, iterate_replace _ other]

end Links

end LaTTe.Translator.GraphEdit
