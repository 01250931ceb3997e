import LaTTe.Translator.Finally.Progress

namespace LaTTe.Translator.Finally

/-! Where the `ret`s of the copied subroutines go on. -/

inductive Method.Nested (m : Method) : List Nat → Prop where
  | main {j entry : Nat} : m.Reaches m.startPc j → (m.code j).subroutine = some entry →
      Nested m [entry]
  | inner {j outer entry : Nat} {chain : List Nat} : Nested m (outer :: chain) →
      m.Reaches outer j → (m.code j).subroutine = some entry →
      Nested m (entry :: outer :: chain)

/-- What verification has found out about a method: the types on the operand stack at a
bytecode, and the subroutine whose return address a `ret` uses, which has been called. -/
structure Verified (m : Method) where
  stackAt : Nat → Context
  returnsFrom : Nat → Nat
  returns : ∀ entry chain r, m.Nested (entry :: chain) → m.Reaches entry r →
    (m.code r).isRet = true → returnsFrom r ∈ entry :: chain

namespace Translation

/-- The `jsr` at `j` in the copy `u` is the one that the finally block `k` is for. -/
def JsrSite (tr : Translation) (k u j : Nat) : Prop :=
  ∃ info, tr.cfg.finallyBlocks[k]? = some info ∧ tr.Translates u j info.gosub

/-- A return address of the subroutine at `entry`, used in the copy for the finally block
`k`, is from the `jsr` at `j` in the copy `u`. -/
inductive ReturnsTo (tr : Translation) (entry : Nat) : Nat → Nat → Nat → Prop where
  | own {k u j : Nat} {info : FinallyBlockInfo} : tr.cfg.finallyBlocks[k]? = some info →
      info.headerPc = entry → tr.JsrSite k u j → ReturnsTo tr entry k u j
  | outer {k l i u j : Nat} {info : FinallyBlockInfo} : tr.cfg.finallyBlocks[k]? = some info →
      info.headerPc ≠ entry → tr.JsrSite k (l + 1) i → ReturnsTo tr entry l u j →
      ReturnsTo tr entry k u j

/-- Each `ret` goes on at the instruction after the `jsr` that it returns to, and the
types taken to be on the operand stack there are those that are there at the `ret`. -/
def ReturnsRight (m : Method) (v : Verified m) (tr : Translation) : Prop :=
  ∀ k r n u j, k < tr.cfg.finallyBlocks.length → tr.Translates (k + 1) r n →
    (m.code r).isRet = true → tr.ReturnsTo (v.returnsFrom r) k u j →
    ∃ gosub a, tr.Translates u j gosub ∧ tr.Translates u ((m.code j).after j) a ∧
      tr.cfg.links.succs n = [tr.entry a] ∧ (tr.cfg.instr gosub).typesAfter = v.stackAt r

/-- The subroutine of a finally block has one `ret`, which returns from it and leaves the
operand stack as the translation had it at the `jsr`, and the array of finally blocks
does not move while it is copied. -/
structure Returning (m : Method) (v : Verified m) (tr : Translation) (k : Nat)
    (info : FinallyBlockInfo) (r : Nat) : Prop where
  own : v.returnsFrom r = info.headerPc
  only : ∀ other, m.Reaches info.headerPc other → (m.code other).isRet = true → other = r
  types : (tr.cfg.instr info.gosub).typesBefore = v.stackAt r
  room : tr.Room m k

section

variable {m : Method} {v : Verified m} {tr : Translation} {k u j : Nat}

theorem Translates.functional {pc n n' : Nat} (first : tr.Translates u pc n)
    (second : tr.Translates u pc n') : n = n' := by
  obtain ⟨table, found, value⟩ := first
  obtain ⟨table', found', value'⟩ := second
  obtain rfl := Option.some.inj (found.symm.trans found')
  exact Option.some.inj (value.symm.trans value')

theorem JsrSite.le (progress : Progress m tr) (site : tr.JsrSite k u j) : u ≤ k := by
  obtain ⟨info, listed, translated⟩ := site
  obtain ⟨v, early, i, translated', _⟩ := progress.sites k info listed
  obtain ⟨rfl, _⟩ := progress.injective u v j i _ translated translated'
  exact early

theorem JsrSite.unique (progress : Progress m tr) {u' j' : Nat} (site : tr.JsrSite k u j)
    (site' : tr.JsrSite k u' j') : u = u' ∧ j = j' := by
  obtain ⟨info, listed, translated⟩ := site
  obtain ⟨info', listed', translated'⟩ := site'
  obtain rfl := Option.some.inj (listed.symm.trans listed')
  exact progress.injective u u' j j' _ translated translated'

theorem ReturnsTo.le (progress : Progress m tr) {entry : Nat}
    (returns : tr.ReturnsTo entry k u j) : u ≤ k := by
  induction returns with
  | own _ _ site => exact JsrSite.le progress site
  | outer _ _ site _ ih =>
      have early := JsrSite.le progress site
      omega

theorem exists_nested (progress : Progress m tr)
    (finished : tr.tables.length = tr.cfg.finallyBlocks.length + 1) {info : FinallyBlockInfo}
    (listed : tr.cfg.finallyBlocks[k]? = some info) :
    ∃ chain, m.Nested (info.headerPc :: chain) ∧
      ∀ entry ∈ info.headerPc :: chain, ∃ u j, tr.ReturnsTo entry k u j := by
  induction k using Nat.strong_induction_on generalizing info with
  | _ k ih =>
      obtain ⟨u, early, j, translated, calls, _⟩ := progress.sites k info listed
      have site : tr.JsrSite k u j := ⟨info, listed, translated⟩
      have below := (List.getElem?_eq_some_iff.mp listed).1
      have reaches := (progress.translated_iff u (by omega) j).mp ⟨_, translated⟩
      cases u with
      | zero =>
          refine ⟨[], .main reaches calls, fun entry member => ?_⟩
          obtain rfl := List.mem_singleton.mp member
          exact ⟨0, j, .own listed rfl site⟩
      | succ l =>
          obtain ⟨caller, found⟩ : ∃ caller, tr.cfg.finallyBlocks[l]? = some caller :=
            ⟨_, List.getElem?_eq_getElem (by omega)⟩
          obtain ⟨chain, nested, leads⟩ := ih l early found
          simp only [start, found, Option.map_some, Option.getD_some] at reaches
          refine ⟨caller.headerPc :: chain, nested.inner reaches calls, fun entry member => ?_⟩
          by_cases own : info.headerPc = entry
          · exact ⟨l + 1, j, .own listed own site⟩
          · have later := (List.mem_cons.mp member).resolve_left (Ne.symm own)
            obtain ⟨u', j', returns⟩ := leads entry later
            exact ⟨u', j', .outer listed own site returns⟩

end

/-- The `ret`s go on where they should, if and only if every copied subroutine with a
`ret` has just one, of its own and without effect on the operand stack, and is copied
without moving the array of finally blocks. -/
theorem returnsRight_iff_returning {m : Method} (v : Verified m) {ops : Operands} {fuel : Nat}
    {tr : Translation} (run : translateOneMethod m ops fuel = some tr) :
    tr.ReturnsRight m v ↔ ∀ k info r, tr.cfg.finallyBlocks[k]? = some info →
      m.Reaches info.headerPc r → (m.code r).isRet = true → tr.Returning m v k info r := by
  obtain ⟨progress, finished⟩ := Progress.translateOneMethod run
  have copied : ∀ {k info} {r : Nat}, tr.cfg.finallyBlocks[k]? = some info →
      (m.Reaches info.headerPc r ↔ ∃ n, tr.Translates (k + 1) r n) := by
    intro k info r listed
    have below := (List.getElem?_eq_some_iff.mp listed).1
    have translated := progress.translated_iff (k + 1) (by omega) r
    simp only [start, listed, Option.map_some, Option.getD_some] at translated
    exact translated.symm
  constructor
  · intro right k info r listed reaches isRet
    have below := (List.getElem?_eq_some_iff.mp listed).1
    obtain ⟨chain, nested, leads⟩ := exists_nested progress finished listed
    -- Any `ret` of the subroutine is the last one, since it has a successor.
    have isLast : ∀ other n, tr.Translates (k + 1) other n → (m.code other).isRet = true →
        info.lastInstr = some n := by
      intro other n translated isRet
      have reaches := (copied listed).mpr ⟨n, translated⟩
      obtain ⟨u, j, returns⟩ := leads _ (v.returns _ _ other nested reaches isRet)
      obtain ⟨_, _, _, _, succs, _⟩ := right k other n u j below translated isRet returns
      refine Classical.byContradiction fun notLast => ?_
      rw [(progress.rets k info other n listed translated isRet).1 notLast] at succs
      contradiction
    obtain ⟨n, translated⟩ := (copied listed).mp reaches
    have last := isLast r n translated isRet
    obtain ⟨site, _, j, siteOf, _, types⟩ := progress.sites k info listed
    obtain ⟨a, next, single⟩ :=
      (progress.rets k info r n listed translated isRet).2 last site j siteOf
    obtain ⟨u', j', returns⟩ := leads _ (v.returns _ _ r nested reaches isRet)
    obtain ⟨gosub, a', translated', next', succs, types'⟩ :=
      right k r n u' j' below translated isRet returns
    have same : a = a' := by
      rw [single] at succs
      exact progress.entry_injective next next' (List.singleton_inj.mp succs)
    subst same
    obtain ⟨rfl, _⟩ := progress.injective _ _ _ _ _ next next'
    have own : v.returnsFrom r = info.headerPc ∧ tr.JsrSite k site j' := by
      cases returns with
      | own found entry atSite =>
          obtain rfl := Option.some.inj (listed.symm.trans found)
          exact ⟨entry.symm, atSite⟩
      | outer found _ atSite returns =>
          have early := returns.le progress
          obtain ⟨rfl, _⟩ := JsrSite.unique progress atSite ⟨info, listed, siteOf⟩
          omega
    refine ⟨own.1, fun other reaches' isRet' => ?_, ?_, ?_⟩
    · obtain ⟨n', translated'⟩ := (copied listed).mp reaches'
      have last' := isLast other n' translated' isRet'
      obtain rfl := Option.some.inj (last.symm.trans last')
      exact (progress.injective _ _ _ _ _ translated' translated).2
    · obtain ⟨_, rfl⟩ := JsrSite.unique progress own.2 ⟨info, listed, siteOf⟩
      obtain rfl := Translates.functional siteOf translated'
      rw [← types, types']
    · exact ((progress.last_iff k info (by omega) listed).mp
        (by rw [last]; exact Option.some_ne_none n)).1
  · intro returning k r n u j below translated isRet returns
    obtain ⟨info, listed⟩ : ∃ info, tr.cfg.finallyBlocks[k]? = some info :=
      ⟨_, List.getElem?_eq_getElem below⟩
    have reaches := (copied listed).mpr ⟨n, translated⟩
    obtain ⟨own, only, types, room⟩ := returning k info r listed reaches isRet
    have siteOf : tr.Translates u j info.gosub := by
      cases returns with
      | own found _ atSite =>
          obtain ⟨info', listed', siteOf⟩ := atSite
          obtain rfl := Option.some.inj (listed.symm.trans listed')
          exact siteOf
      | outer found other _ _ =>
          obtain rfl := Option.some.inj (listed.symm.trans found)
          exact absurd own.symm other
    have set := (progress.last_iff k info (by omega) listed).mpr ⟨room, r, reaches, isRet⟩
    obtain ⟨n', last⟩ := Option.ne_none_iff_exists'.mp set
    obtain ⟨r', translated', isRet'⟩ := progress.last_sound k info n' (by omega) listed last
    obtain rfl := only r' ((copied listed).mpr ⟨n', translated'⟩) isRet'
    obtain rfl := Translates.functional translated' translated
    obtain ⟨a, next, single⟩ :=
      (progress.rets k info r' n' listed translated isRet).2 last u j siteOf
    obtain ⟨site, _, j', siteOf', _, unchanged⟩ := progress.sites k info listed
    exact ⟨info.gosub, a, siteOf, next, single, unchanged.trans types⟩

/-! Subroutines with one `ret` and with two. -/

def empty : Operands where
  top := 0
  types := fun _ => .int

def pop (ops : Operands) : Operands :=
  { ops with top := ops.top - 1 }

def oneReturn : Method where
  startPc := 0
  code
    | 0 => .jsr 4
    | 4 => .plain pop (.next 5)
    | 5 => .ret 1
    | _ => .plain id .stop

def twoReturns : Method where
  startPc := 0
  code
    | 0 => .jsr 4
    | 4 => .plain pop (.next 5)
    | 5 => .plain (·.push .int) (.next 6)
    | 6 => .plain pop (.branch [11, 9])
    | 9 => .ret 1
    | 11 => .ret 1
    | _ => .plain id .stop

theorem nested_entry {m : Method} {target entry : Nat} {chain : List Nat}
    (single : ∀ j entry, (m.code j).subroutine = some entry → entry = target)
    (nested : m.Nested (entry :: chain)) : entry = target := by
  cases nested with
  | main _ calls => exact single _ _ calls
  | inner _ _ calls => exact single _ _ calls

theorem oneReturn_single (j entry : Nat)
    (calls : (oneReturn.code j).subroutine = some entry) : entry = 4 := by
  simp only [oneReturn] at calls
  split at calls
  · exact (Option.some.inj calls).symm
  all_goals contradiction

theorem twoReturns_single (j entry : Nat)
    (calls : (twoReturns.code j).subroutine = some entry) : entry = 4 := by
  simp only [twoReturns] at calls
  split at calls
  · exact (Option.some.inj calls).symm
  all_goals contradiction

def oneReturnVerified : Verified oneReturn where
  stackAt := fun pc => if pc = 4 then [.ref] else []
  returnsFrom := fun _ => 4
  returns := fun entry chain _ nested _ _ => by
    rw [nested_entry oneReturn_single nested]
    exact List.mem_cons_self

def twoReturnsVerified : Verified twoReturns where
  stackAt := fun pc => if pc = 4 then [.ref] else if pc = 6 then [.int] else []
  returnsFrom := fun _ => 4
  returns := fun entry chain _ nested _ _ => by
    rw [nested_entry twoReturns_single nested]
    exact List.mem_cons_self

theorem returnsRight_iff_returning_oneReturn :
    ∃ tr, translateOneMethod oneReturn empty 10 = some tr ∧
      (tr.ReturnsRight oneReturn oneReturnVerified ↔
        ∀ k info r, tr.cfg.finallyBlocks[k]? = some info →
          oneReturn.Reaches info.headerPc r → (oneReturn.code r).isRet = true →
          tr.Returning oneReturn oneReturnVerified k info r) := by
  have run : ∃ tr, translateOneMethod oneReturn empty 10 = some tr :=
    Option.isSome_iff_exists.mp (by decide)
  obtain ⟨tr, run⟩ := run
  exact ⟨tr, run, returnsRight_iff_returning oneReturnVerified run⟩

/-- Of two `ret`s the one that is translated first goes nowhere. -/
theorem twoReturns_not_returnsRight :
    ∃ tr, translateOneMethod twoReturns empty 10 = some tr ∧
      ¬ tr.ReturnsRight twoReturns twoReturnsVerified := by
  obtain ⟨tr, run⟩ : ∃ tr, translateOneMethod twoReturns empty 10 = some tr :=
    Option.isSome_iff_exists.mp (by decide)
  have computed : ∀ {α : Type} (f : Translation → α) (value : α),
      (translateOneMethod twoReturns empty 10).map f = some value → f tr = value := by
    intro α f value equal
    rw [run] at equal
    exact Option.some.inj equal
  have blocks := computed (fun tr => tr.cfg.finallyBlocks) [⟨4, 1, 0, 3, some 9⟩] (by decide)
  have jsr := computed (fun tr => (tr.tables[0]?).map (· 0)) (some (some 1)) (by decide)
  have ret := computed (fun tr => (tr.tables[1]?).map (· 9)) (some (some 8)) (by decide)
  have succs := computed (fun tr => tr.cfg.links.succs 8) [] (by decide)
  simp only [Option.map_eq_some_iff] at blocks jsr ret succs
  refine ⟨tr, run, fun right => ?_⟩
  have listed : tr.cfg.finallyBlocks[0]? = some ⟨4, 1, 0, 3, some 9⟩ := by rw [blocks]; rfl
  obtain ⟨_, _, _, _, single, _⟩ := right 0 9 8 0 0 (by rw [blocks]; decide) ret rfl
    (.own listed rfl ⟨_, listed, jsr⟩)
  rw [succs] at single
  contradiction

end Translation

end LaTTe.Translator.Finally
