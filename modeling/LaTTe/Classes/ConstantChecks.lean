import LaTTe.Classes.ConstantPool

namespace LaTTe.Classes.ConstantPool

/-! What is read of the constants of a class file, and what is refused. -/

def constantsFrom (size : Nat) : Nat → ClassFile → Nat → List (Nat × Constant)
  | 0, _, _ => []
  | fuel + 1, fp, i =>
      if i < size then
        match readConstant fp with
        | none => []
        | some (constant, fp) =>
            (i, constant) :: constantsFrom size fuel fp (i + constant.slots)
      else []

def declared (fp : ClassFile) : Nat :=
  fp.readu2.1.toNat

def constants (fp : ClassFile) : List (Nat × Constant) :=
  constantsFrom (declared fp) (declared fp) fp.readu2.2 1

namespace Constant

theorem tag_ne_unknown (constant : Constant) : constant.tag ≠ .unknown := by
  cases constant <;> exact nofun

theorem slots_pos (constant : Constant) : 0 < constant.slots := by
  rw [slots]
  split <;> decide

theorem slots_of_second {constant : Constant} {d4b : BitVec 32}
    (second : constant.second = some d4b) : constant.slots = 2 := by
  rw [slots, second]
  rfl

end Constant

/-! The first loop. -/

variable (makeUtf8Const : List (BitVec 8) → BitVec 32) in
theorem store_spec {info : Constants} {i : Nat} {constant : Constant}
    (fits : i + constant.slots ≤ info.size) :
    ∃ next, store makeUtf8Const info i constant = .ok next ∧ next.size = info.size ∧
      (∀ k < i, next.tags k = info.tags k ∧ next.data k = info.data k) ∧
      next.tags i = constant.tag ∧ next.data i = constant.word makeUtf8Const ∧
      ∀ d4b, constant.second = some d4b → next.data (i + 1) = d4b ∧ next.tags (i + 1) = .unknown := by
  have inside : i < info.size := by
    have := constant.slots_pos
    omega
  cases second : constant.second with
  | none =>
      refine ⟨⟨info.size, Function.update info.tags i constant.tag,
        Function.update info.data i (constant.word makeUtf8Const)⟩, ?_, rfl, fun k less => ?_,
        Function.update_self _ _ _, Function.update_self _ _ _, nofun⟩
      · simp only [store, Constants.setTag, Constants.setSlot, if_pos inside, second, bind,
          Except.bind]
      · exact ⟨Function.update_of_ne less.ne _ _, Function.update_of_ne less.ne _ _⟩
  | some d4b =>
      have inside' : i + 1 < info.size := by
        rw [Constant.slots_of_second second] at fits
        omega
      refine ⟨⟨info.size,
        Function.update (Function.update info.tags i constant.tag) (i + 1) .unknown,
        Function.update (Function.update info.data i (constant.word makeUtf8Const)) (i + 1) d4b⟩,
        ?_, rfl, fun k less => ?_, ?_, ?_, ?_⟩
      · simp only [store, Constants.setTag, Constants.setSlot, if_pos inside, second, bind,
          Except.bind, if_pos inside']
      · have apart : k ≠ i + 1 := by omega
        exact ⟨by simp only [Function.update_of_ne apart, Function.update_of_ne less.ne],
          by simp only [Function.update_of_ne apart, Function.update_of_ne less.ne]⟩
      · simp
      · simp
      · rintro _ ⟨⟩
        exact ⟨Function.update_self _ _ _, Function.update_self _ _ _⟩

variable {makeUtf8Const : List (BitVec 8) → BitVec 32}

structure Filled (makeUtf8Const : List (BitVec 8) → BitVec 32) (info : Constants)
    (entries : List (Nat × Constant)) (i : Nat) : Prop where
  tag : ∀ k c, (k, c) ∈ entries → info.tags k = c.tag
  word : ∀ k c, (k, c) ∈ entries → info.data k = c.word makeUtf8Const
  second : ∀ k c, (k, c) ∈ entries → ∀ d4b, c.second = some d4b →
    info.data (k + 1) = d4b ∧ info.tags (k + 1) = .unknown
  placed : ∀ k c, (k, c) ∈ entries → 1 ≤ k ∧ k + c.slots ≤ i
  covered : ∀ k < i, info.tags k = .unknown ∨ ∃ c, (k, c) ∈ entries

/-- The constants of the list take up all slots from `i` on. -/
inductive Laid (size : Nat) : Nat → List (Nat × Constant) → Prop
  | done : Laid size size []
  | constant {i : Nat} {c : Constant} {rest : List (Nat × Constant)} (inside : i < size)
      (later : Laid size (i + c.slots) rest) : Laid size i ((i, c) :: rest)

namespace Filled

variable {info : Constants} {entries : List (Nat × Constant)} {i : Nat}

theorem start (zero : info.tags 0 = .unknown) : Filled makeUtf8Const info [] 1 where
  tag := nofun
  word := nofun
  second := nofun
  placed := nofun
  covered := fun _ less => .inl (Nat.lt_one_iff.mp less ▸ zero)

/-- The next constant comes behind the others. -/
theorem store (filled : Filled makeUtf8Const info entries i) (positive : 1 ≤ i)
    {constant : Constant} (fits : i + constant.slots ≤ info.size) :
    ∃ next, ConstantPool.store makeUtf8Const info i constant = .ok next ∧
      next.size = info.size ∧
      Filled makeUtf8Const next (entries ++ [(i, constant)]) (i + constant.slots) := by
  obtain ⟨next, stored, size, before, tag, word, second⟩ :=
    store_spec makeUtf8Const fits
  have cases_of : ∀ k c, (k, c) ∈ entries ++ [(i, constant)] →
      (k, c) ∈ entries ∨ k = i ∧ c = constant := by
    intro k c member
    exact (List.mem_append.mp member).imp id fun last => by simpa using last
  refine ⟨next, stored, size, ?_, ?_, ?_, ?_, ?_⟩
  · intro k c member
    rcases cases_of k c member with old | ⟨rfl, rfl⟩
    · have less := (filled.placed k c old).2
      have positive := c.slots_pos
      rw [(before k (by omega)).1, filled.tag k c old]
    · exact tag
  · intro k c member
    rcases cases_of k c member with old | ⟨rfl, rfl⟩
    · have less := (filled.placed k c old).2
      have positive := c.slots_pos
      rw [(before k (by omega)).2, filled.word k c old]
    · exact word
  · intro k c member d4b wide
    rcases cases_of k c member with old | ⟨rfl, rfl⟩
    · have less := (filled.placed k c old).2
      rw [Constant.slots_of_second wide] at less
      rw [(before (k + 1) (by omega)).1, (before (k + 1) (by omega)).2]
      exact filled.second k c old d4b wide
    · exact second d4b wide
  · intro k c member
    rcases cases_of k c member with old | ⟨rfl, rfl⟩
    · have placed := filled.placed k c old
      omega
    · exact ⟨positive, Nat.le_refl _⟩
  · intro k less
    rcases Nat.lt_trichotomy k i with below | rfl | above
    · rw [(before k below).1]
      exact (filled.covered k below).imp id fun ⟨c, member⟩ =>
        ⟨c, List.mem_append_left _ member⟩
    · exact .inr ⟨constant, List.mem_append_right _ List.mem_cons_self⟩
    · cases wide : constant.second with
      | none =>
          rw [Constant.slots, wide] at less
          exact absurd above (Nat.not_lt.mpr (Nat.le_of_lt_succ less))
      | some d4b =>
          rw [Constant.slots_of_second wide] at less
          have last : k = i + 1 := by omega
          exact .inl (last ▸ (second d4b wide).2)

/-- The loop stores all constants or finds an unknown type. -/
theorem run (filled : Filled makeUtf8Const info entries i) (positive : 1 ≤ i) {fuel : Nat}
    (enough : info.size ≤ i + fuel) (le : i ≤ info.size) (fp : ClassFile)
    (fits : ∀ k c, (k, c) ∈ constantsFrom info.size fuel fp i → k + c.slots ≤ info.size) :
    readConstants makeUtf8Const fuel info fp i = .error .classFormatError ∨
      ∃ next fp', readConstants makeUtf8Const fuel info fp i = .ok (next, fp') ∧
        next.size = info.size ∧ Laid info.size i (constantsFrom info.size fuel fp i) ∧
        Filled makeUtf8Const next (entries ++ constantsFrom info.size fuel fp i) info.size := by
  induction fuel generalizing info entries i fp with
  | zero =>
      have same : i = info.size := by omega
      refine .inr ⟨info, fp, rfl, rfl, ?_, ?_⟩
      · exact same ▸ .done
      · rw [constantsFrom, List.append_nil]
        exact same ▸ filled
  | succ fuel ih =>
      rw [readConstants, constantsFrom]
      rw [constantsFrom] at fits
      split
      · rename_i inside
        rw [if_pos inside] at fits
        cases read : readConstant fp with
        | none => exact .inl rfl
        | some pair =>
            obtain ⟨constant, rest⟩ := pair
            rw [read] at fits
            have here := fits i constant List.mem_cons_self
            obtain ⟨next, stored, size, filled'⟩ := filled.store positive here
            have positive' := constant.slots_pos
            have later := ih filled' (by omega) (by omega) (by omega) rest
              (fun k c member => by
                rw [size] at member ⊢
                exact fits k c (List.mem_cons_of_mem _ member))
            simp only [stored, bind, Except.bind]
            rw [size, List.append_assoc, List.singleton_append] at later
            refine later.imp id fun ⟨last, fp', result, size', laid, filled''⟩ => ?_
            exact ⟨last, fp', result, size', .constant inside laid, filled''⟩
      · have same : i = info.size := by omega
        refine .inr ⟨info, fp, rfl, rfl, ?_, ?_⟩
        · exact same ▸ .done
        · rw [List.append_nil]
          exact same ▸ filled

end Filled

/-! The second loop. -/

namespace Constants

variable (info : Constants)

def isName (k : Nat) : Prop :=
  info.tags k = .className ∨ info.tags k = .string

instance (k : Nat) : Decidable (info.isName k) :=
  inferInstanceAs (Decidable (_ ∨ _))

variable {info} {i : Nat}

theorem resolveName_plain (inside : i < info.size) (plain : ¬ info.isName i) :
    resolveName info i = .ok info := by
  simp only [resolveName, tag, if_pos inside, bind, Except.bind]
  exact if_neg plain

theorem resolveName_utf8 (inside : i < info.size) (name : info.isName i)
    (named : (info.low i).toNat < info.size) (utf8 : info.tags (info.low i).toNat = .utf8) :
    resolveName info i =
      .ok { info with data := Function.update info.data i (info.data (info.low i).toNat) } := by
  unfold low at named utf8
  simp only [resolveName, tag, slot, if_pos inside, bind, Except.bind, if_pos named, utf8,
    if_true, setSlot]
  exact if_pos name

theorem resolveName_other (inside : i < info.size) (name : info.isName i)
    (named : (info.low i).toNat < info.size) (other : info.tags (info.low i).toNat ≠ .utf8) :
    resolveName info i = .ok { info with tags := Function.update info.tags i .unknown } := by
  unfold low at named other
  simp only [resolveName, tag, slot, if_pos inside, bind, Except.bind, if_pos named, other,
    if_false, setTag]
  exact if_pos name

variable (info) in
/-- The slots after the names below `i` were resolved. -/
def resolvedBelow (i : Nat) : Constants where
  size := info.size
  tags k :=
    if k < i ∧ info.isName k ∧ info.tags (info.low k).toNat ≠ .utf8 then .unknown
    else info.tags k
  data k :=
    if k < i ∧ info.isName k ∧ info.tags (info.low k).toNat = .utf8 then
      info.data (info.low k).toNat
    else info.data k

theorem resolvedBelow_tags_of_le {k : Nat} (le : i ≤ k) :
    (info.resolvedBelow i).tags k = info.tags k :=
  if_neg fun both => absurd both.1 (Nat.not_lt.mpr le)

theorem resolvedBelow_data_of_le {k : Nat} (le : i ≤ k) :
    (info.resolvedBelow i).data k = info.data k :=
  if_neg fun both => absurd both.1 (Nat.not_lt.mpr le)

theorem resolvedBelow_utf8_iff (k : Nat) :
    (info.resolvedBelow i).tags k = .utf8 ↔ info.tags k = .utf8 := by
  show (if _ then _ else _) = _ ↔ _
  split
  · rename_i name
    refine iff_of_false nofun fun utf8 => ?_
    rcases name.2.1 with tag | tag <;> rw [utf8] at tag <;> contradiction
  · exact Iff.rfl

theorem resolvedBelow_data_of_utf8 {k : Nat} (utf8 : info.tags k = .utf8) :
    (info.resolvedBelow i).data k = info.data k := by
  refine if_neg fun both => ?_
  rcases both.2.1 with tag | tag <;> rw [utf8] at tag <;> contradiction

theorem resolvedBelow_succ_of_not (plain : ¬ info.isName i) :
    info.resolvedBelow (i + 1) = info.resolvedBelow i := by
  have same : ∀ k (p : Prop), k < i + 1 ∧ info.isName k ∧ p ↔ k < i ∧ info.isName k ∧ p := by
    intro k p
    constructor
    · intro ⟨less, name, rest⟩
      have apart : k ≠ i := fun same => plain (same ▸ name)
      exact ⟨by omega, name, rest⟩
    · intro ⟨less, rest⟩
      exact ⟨Nat.lt_succ_of_lt less, rest⟩
  simp only [resolvedBelow, same]

theorem resolvedBelow_succ_of_utf8 (name : info.isName i)
    (utf8 : info.tags (info.low i).toNat = .utf8) :
    info.resolvedBelow (i + 1) =
      { info.resolvedBelow i with
        data := Function.update (info.resolvedBelow i).data i (info.data (info.low i).toNat) } := by
  unfold resolvedBelow
  congr 1
  · funext k
    by_cases same : k = i
    · subst same
      simp [utf8]
    · have less : k < i + 1 ↔ k < i := by omega
      simp only [less]
  · funext k
    by_cases same : k = i
    · subst same
      rw [Function.update_self, if_pos ⟨Nat.lt_succ_self k, name, utf8⟩]
    · have less : k < i + 1 ↔ k < i := by omega
      rw [Function.update_of_ne same]
      simp only [less]

theorem resolvedBelow_succ_of_not_utf8 (name : info.isName i)
    (other : info.tags (info.low i).toNat ≠ .utf8) :
    info.resolvedBelow (i + 1) =
      { info.resolvedBelow i with
        tags := Function.update (info.resolvedBelow i).tags i .unknown } := by
  unfold resolvedBelow
  congr 1
  · funext k
    by_cases same : k = i
    · subst same
      rw [Function.update_self, if_pos ⟨Nat.lt_succ_self k, name, other⟩]
    · have less : k < i + 1 ↔ k < i := by omega
      rw [Function.update_of_ne same]
      simp only [less]
  · funext k
    by_cases same : k = i
    · subst same
      simp [other]
    · have less : k < i + 1 ↔ k < i := by omega
      simp only [less]

theorem resolveName_eq (inside : i < info.size)
    (named : info.isName i → (info.low i).toNat < info.size) :
    resolveName (info.resolvedBelow i) i = .ok (info.resolvedBelow (i + 1)) := by
  have low : (info.resolvedBelow i).low i = info.low i :=
    congrArg (BitVec.setWidth 16) (resolvedBelow_data_of_le (Nat.le_refl i))
  have name_iff : (info.resolvedBelow i).isName i ↔ info.isName i := by
    rw [isName, resolvedBelow_tags_of_le (Nat.le_refl i)]
    exact Iff.rfl
  have inside' : i < (info.resolvedBelow i).size := inside
  by_cases name : info.isName i
  · have name' := name_iff.mpr name
    have named' : ((info.resolvedBelow i).low i).toNat < (info.resolvedBelow i).size :=
      low ▸ named name
    by_cases utf8 : info.tags (info.low i).toNat = .utf8
    · have utf8' := (resolvedBelow_utf8_iff (i := i) _).mpr utf8
      rw [resolveName_utf8 inside' name' named' (low ▸ utf8'), low,
        resolvedBelow_data_of_utf8 utf8, resolvedBelow_succ_of_utf8 name utf8]
    · have other := fun utf8' => utf8 ((resolvedBelow_utf8_iff (i := i) _).mp utf8')
      rw [resolveName_other inside' name' named' (low ▸ other),
        resolvedBelow_succ_of_not_utf8 name utf8]
  · rw [resolveName_plain inside' fun name' => name (name_iff.mp name'),
      resolvedBelow_succ_of_not name]

theorem resolveNames_eq (count : Nat) (inside : i + count ≤ info.size)
    (named : ∀ k < info.size, info.isName k → (info.low k).toNat < info.size) :
    (List.range' i count).foldlM resolveName (info.resolvedBelow i) =
      .ok (info.resolvedBelow (i + count)) := by
  induction count generalizing i with
  | zero => rfl
  | succ count ih =>
      rw [List.range'_succ, List.foldlM_cons, resolveName_eq (by omega) (named i (by omega))]
      have rest := ih (i := i + 1) (by omega)
      rwa [Nat.succ_add_eq_add_succ] at rest

end Constants

/-! The check. -/

namespace Constant

def checked (c : Constant) : List (BitVec 16 × ConstantTag) :=
  if c.name.isSome then [] else c.references

theorem low_append (d2b d2 : BitVec 16) : (d2b ++ d2 : BitVec 32).setWidth 16 = d2 := by
  ext i small
  rw [BitVec.getElem_setWidth]
  exact BitVec.getLsbD_append.trans (by simp [small])

theorem high_append (d2b d2 : BitVec 16) : ((d2b ++ d2 : BitVec 32) >>> 16).setWidth 16 = d2b := by
  ext i small
  have upper : ¬ 16 + i < 16 := by omega
  rw [BitVec.getElem_setWidth, BitVec.getLsbD_ushiftRight]
  exact BitVec.getLsbD_append.trans (by simp [upper, BitVec.getLsbD_eq_getElem small])

end Constant

namespace Constants

variable {info : Constants} {i : Nat}

structure Keeps (info : Constants) (makeUtf8Const : List (BitVec 8) → BitVec 32) (i : Nat)
    (c : Constant) : Prop where
  tag : info.tags i = c.tag ∨ c.name.isSome ∧ info.tags i = .unknown
  word : c.name = none → info.data i = c.word makeUtf8Const

def Passes (info : Constants) (i : Nat) (c : Constant) : Prop :=
  info.tags i = c.tag ∧ ∀ r ∈ c.checked, info.constTag r.1 = r.2

instance (info : Constants) (i : Nat) (c : Constant) : Decidable (info.Passes i c) :=
  inferInstanceAs (Decidable (_ ∧ _))

section

variable {c : Constant} {fuel : Nat} {error : Bool}

theorem passes_iff (tag : info.tags i = c.tag) :
    info.Passes i c ↔ ∀ r ∈ c.checked, info.constTag r.1 = r.2 :=
  and_iff_right tag

theorem not_passes (marked : info.tags i = .unknown) : ¬ info.Passes i c := by
  intro passes
  exact c.tag_ne_unknown (passes.1.symm.trans marked)

/-- A round of the check. -/
theorem verifyFrom_succ (inside : i < info.size)
    (keeps : info.Keeps makeUtf8Const i c)
    (unresolved : ∀ idx, info.constTag idx ≠ .resolvedClass) :
    info.verifyFrom (fuel + 1) i error =
      info.verifyFrom fuel (i + c.slots) (error || !decide (info.Passes i c)) := by
  rw [verifyFrom, if_pos inside]
  have plain : c.name = none → info.tags i = c.tag := by
    intro none
    refine keeps.tag.resolve_right fun named => ?_
    rw [none] at named
    exact Bool.noConfusion named.1
  cases c with
  | utf8 _ | integer _ | float _ | long _ _ | double _ _ =>
      have tag := plain rfl
      have passes := (passes_iff tag).mpr nofun
      rw [tag, decide_eq_true passes, Bool.not_true, Bool.or_false]
      rfl
  | className _ | string _ =>
      rcases keeps.tag with tag | ⟨_, marked⟩
      · have passes := (passes_iff tag).mpr nofun
        rw [tag, decide_eq_true passes, Bool.not_true, Bool.or_false]
        rfl
      · rw [marked, decide_eq_false (not_passes marked), Bool.not_false, Bool.or_true]
        rfl
  | fieldref ci ni | methodref ci ni | interfaceMethodref ci ni =>
      have tag := plain rfl
      have word := keeps.word rfl
      have low : info.low i = ci := by rw [low, word]; exact Constant.low_append _ _
      have high : info.high i = ni := by rw [high, word]; exact Constant.high_append _ _
      have passes : info.Passes i _ ↔
          info.constTag ci = .className ∧ info.constTag ni = .nameAndType :=
        (passes_iff tag).trans (by simp [Constant.checked, Constant.references, Constant.name])
      have resolved := bne_iff_ne.mpr (unresolved ci)
      rw [tag]
      simp only [Constant.tag, low, high, passes, resolved, Bool.and_true, Bool.decide_and,
        Bool.not_and, Bool.or_assoc]
      rfl
  | nameAndType nin nis =>
      have tag := plain rfl
      have word := keeps.word rfl
      have low : info.low i = nin := by rw [low, word]; exact Constant.low_append _ _
      have high : info.high i = nis := by rw [high, word]; exact Constant.high_append _ _
      have passes : info.Passes i _ ↔ info.constTag nin = .utf8 ∧ info.constTag nis = .utf8 :=
        (passes_iff tag).trans (by simp [Constant.checked, Constant.references, Constant.name])
      rw [tag]
      simp only [Constant.tag, low, high, passes, Bool.decide_and, Bool.not_and, Bool.or_assoc]
      rfl

theorem verifyFrom_eq_false_iff {entries : List (Nat × Constant)}
    (laid : Laid info.size i entries)
    (keeps : ∀ k c, (k, c) ∈ entries → info.Keeps makeUtf8Const k c)
    (unresolved : ∀ idx, info.constTag idx ≠ .resolvedClass) (enough : info.size ≤ i + fuel) :
    info.verifyFrom fuel i error = false ↔
      error = false ∧ ∀ k c, (k, c) ∈ entries → info.Passes k c := by
  generalize size : info.size = last at laid
  induction laid generalizing fuel error with
  | done =>
      have stop : info.verifyFrom fuel last error = error := by
        cases fuel with
        | zero => rfl
        | succ fuel => rw [verifyFrom, if_neg (by omega)]
      rw [stop]
      exact ⟨fun none => ⟨none, nofun⟩, And.left⟩
  | @constant i c rest inside later ih =>
      obtain ⟨fuel, rfl⟩ : ∃ n, fuel = n + 1 := ⟨fuel - 1, by omega⟩
      have positive := c.slots_pos
      rw [verifyFrom_succ (size ▸ inside) (keeps i c List.mem_cons_self) unresolved,
        ih (fun k c member => keeps k c (List.mem_cons_of_mem _ member)) (by omega)]
      simp only [Bool.or_eq_false_iff, Bool.not_eq_false', decide_eq_true_eq, List.mem_cons,
        Prod.mk.injEq, and_assoc]
      refine and_congr_right fun _ => ?_
      constructor
      · rintro ⟨first, others⟩ k c (⟨rfl, rfl⟩ | member)
        · exact first
        · exact others k c member
      · exact fun all => ⟨all i c (.inl ⟨rfl, rfl⟩), fun k c member => all k c (.inr member)⟩

end

end Constants

/-! A pool that was read. -/

namespace Filled

variable {info : Constants} {entries : List (Nat × Constant)}

theorem isName_iff (filled : Filled makeUtf8Const info entries info.size) {k : Nat}
    {c : Constant} (member : (k, c) ∈ entries) : info.isName k ↔ c.name.isSome := by
  rw [Constants.isName, filled.tag k c member]
  cases c <;> simp [Constant.tag, Constant.name]

theorem low_eq (filled : Filled makeUtf8Const info entries info.size) {k : Nat} {c : Constant}
    (member : (k, c) ∈ entries) {n : BitVec 16} (name : c.name = some n) : info.low k = n := by
  rw [Constants.low, filled.word k c member]
  cases c <;> simp_all [Constant.word, Constant.name]

theorem named (filled : Filled makeUtf8Const info entries info.size)
    (inside : ∀ k c n, (k, c) ∈ entries → c.name = some n → n.toNat < info.size)
    (k : Nat) (below : k < info.size) (name : info.isName k) :
    (info.low k).toNat < info.size := by
  rcases filled.covered k below with unknown | ⟨c, member⟩
  · rcases name with tag | tag <;> rw [unknown] at tag <;> contradiction
  · obtain ⟨n, some⟩ := Option.isSome_iff_exists.mp ((filled.isName_iff member).mp name)
    rw [filled.low_eq member some]
    exact inside k c n member some

theorem exists_constant (filled : Filled makeUtf8Const info entries info.size) {k : Nat}
    (below : k < info.size) {tag : ConstantTag} (here : info.tags k = tag)
    (known : tag ≠ .unknown) : ∃ c, (k, c) ∈ entries ∧ c.tag = tag := by
  rcases filled.covered k below with unknown | ⟨c, member⟩
  · exact absurd (here.symm.trans unknown) known
  · exact ⟨c, member, (filled.tag k c member).symm.trans here⟩

end Filled

structure Pooled (makeUtf8Const : List (BitVec 8) → BitVec 32) (entries : List (Nat × Constant))
    (info : Constants) : Prop where
  plain : ∀ k c, (k, c) ∈ entries → c.name = none →
    info.tags k = c.tag ∧ info.data k = c.word makeUtf8Const
  second : ∀ k c, (k, c) ∈ entries → ∀ d4b, c.second = some d4b →
    info.data (k + 1) = d4b ∧ info.tags (k + 1) = .unknown
  named : ∀ k c, (k, c) ∈ entries → ∀ n, c.name = some n →
    (∃ text, (n.toNat, .utf8 text) ∈ entries ∧ info.tags k = c.tag ∧
      info.data k = makeUtf8Const text) ∨
    (∀ text, (n.toNat, Constant.utf8 text) ∉ entries) ∧ info.tags k = .unknown
  known : ∀ k < info.size, info.tags k = .unknown ∨
    ∃ c, (k, c) ∈ entries ∧ info.tags k = c.tag

def Consistent (entries : List (Nat × Constant)) : Prop :=
  ∀ k c, (k, c) ∈ entries → ∀ r ∈ c.references,
    ∃ other, (r.1.toNat, other) ∈ entries ∧ other.tag = r.2

namespace Filled

variable {info : Constants} {entries : List (Nat × Constant)}

theorem pooled (filled : Filled makeUtf8Const info entries info.size)
    (inside : ∀ k c n, (k, c) ∈ entries → c.name = some n → n.toNat < info.size) :
    Pooled makeUtf8Const entries (info.resolvedBelow info.size) where
  plain := by
    intro k c member none
    have notName : ¬ info.isName k := by
      rw [filled.isName_iff member, none]
      exact Bool.false_ne_true
    have tag : (info.resolvedBelow info.size).tags k = info.tags k :=
      if_neg fun both => notName both.2.1
    have data : (info.resolvedBelow info.size).data k = info.data k :=
      if_neg fun both => notName both.2.1
    rw [tag, data]
    exact ⟨filled.tag k c member, filled.word k c member⟩
  second := by
    intro k c member d4b wide
    obtain ⟨word, unknown⟩ := filled.second k c member d4b wide
    have notName : ¬ info.isName (k + 1) := by
      rintro (tag | tag) <;> rw [unknown] at tag <;> contradiction
    have tag : (info.resolvedBelow info.size).tags (k + 1) = info.tags (k + 1) :=
      if_neg fun both => notName both.2.1
    have data : (info.resolvedBelow info.size).data (k + 1) = info.data (k + 1) :=
      if_neg fun both => notName both.2.1
    rw [tag, data]
    exact ⟨word, unknown⟩
  named := by
    intro k c member n some
    have low := filled.low_eq member some
    have name : info.isName k := (filled.isName_iff member).mpr (by rw [some]; rfl)
    have below : k < info.size := by
      have placed := filled.placed k c member
      have positive := c.slots_pos
      omega
    by_cases utf8 : info.tags n.toNat = .utf8
    · obtain ⟨other, there, kind⟩ :=
        filled.exists_constant (inside k c n member some) utf8 nofun
      cases other with
      | utf8 text =>
          refine .inl ⟨text, there, ?_, ?_⟩
          · have tag : (info.resolvedBelow info.size).tags k = info.tags k :=
              if_neg fun both => both.2.2 (low ▸ utf8)
            rw [tag, filled.tag k c member]
          · have data : (info.resolvedBelow info.size).data k = info.data (info.low k).toNat :=
              if_pos ⟨below, name, low ▸ utf8⟩
            rw [data, low]
            exact filled.word _ _ there
      | _ => exact nomatch kind
    · refine .inr ⟨fun text there => utf8 (filled.tag _ _ there), ?_⟩
      exact if_pos ⟨below, name, low ▸ utf8⟩
  known := by
    intro k below
    by_cases marked : k < info.size ∧ info.isName k ∧ info.tags (info.low k).toNat ≠ .utf8
    · exact .inl (if_pos marked)
    · have tag : (info.resolvedBelow info.size).tags k = info.tags k := if_neg marked
      rw [tag]
      exact (filled.covered k below).imp id fun ⟨c, member⟩ => ⟨c, member, filled.tag k c member⟩

end Filled

theorem Laid.placed {size i : Nat} {entries : List (Nat × Constant)} (laid : Laid size i entries)
    {k : Nat} {c : Constant} (member : (k, c) ∈ entries) : i ≤ k ∧ k < size := by
  induction laid with
  | done => contradiction
  | constant inside later ih =>
      cases List.mem_cons.mp member with
      | inl first =>
          cases first
          exact ⟨Nat.le_refl _, inside⟩
      | inr member =>
          have placed := ih member
          omega

namespace Constant

theorem reference_known {c : Constant} : ∀ r ∈ c.references, r.2 ≠ .unknown := by
  cases c <;> simp [references]

theorem references_of_name {c : Constant} {n : BitVec 16} (name : c.name = some n) :
    c.references = [(n, .utf8)] := by
  cases c <;> cases name <;> rfl

theorem checked_of_plain {c : Constant} (plain : c.name = none) : c.checked = c.references := by
  rw [checked, plain]
  rfl

theorem checked_of_name {c : Constant} {n : BitVec 16} (name : c.name = some n) :
    c.checked = [] := by
  rw [checked, name]
  rfl

end Constant

namespace Pooled

variable {info : Constants} {entries : List (Nat × Constant)}

theorem keeps (pooled : Pooled makeUtf8Const entries info) {k : Nat} {c : Constant}
    (member : (k, c) ∈ entries) : info.Keeps makeUtf8Const k c := by
  cases name : c.name with
  | none =>
      obtain ⟨tag, word⟩ := pooled.plain k c member name
      exact ⟨.inl tag, fun _ => word⟩
  | some n =>
      refine ⟨?_, fun plain => nomatch name.symm.trans plain⟩
      rcases pooled.named k c member n name with ⟨_, _, tag, _⟩ | ⟨_, unknown⟩
      · exact .inl tag
      · exact .inr ⟨by rw [name]; rfl, unknown⟩

theorem unresolved (pooled : Pooled makeUtf8Const entries info) (idx : BitVec 16) :
    info.constTag idx ≠ .resolvedClass := by
  rw [Constants.constTag]
  split
  · rename_i inside
    rcases pooled.known _ inside.2 with unknown | ⟨c, _, tag⟩
    · rw [unknown]
      exact nofun
    · rw [tag]
      cases c <;> exact nofun
  · exact nofun

/-- All constants pass the check exactly if their references are right. -/
theorem passes_iff (pooled : Pooled makeUtf8Const entries info) (laid : Laid info.size 1 entries) :
    (∀ k c, (k, c) ∈ entries → info.Passes k c) ↔ Consistent entries := by
  constructor
  · intro passes k c member r reference
    have passes := passes k c member
    cases name : c.name with
    | none =>
        have here := passes.2 r (Constant.checked_of_plain name ▸ reference)
        have known := Constant.reference_known r reference
        rw [Constants.constTag] at here
        split at here
        · rename_i inside
          rcases pooled.known _ inside.2 with unknown | ⟨other, there, tag⟩
          · exact absurd (here.symm.trans unknown) known
          · exact ⟨other, there, tag.symm.trans here⟩
        · exact absurd here.symm known
    | some n =>
        rw [Constant.references_of_name name, List.mem_singleton] at reference
        subst reference
        rcases pooled.named k c member n name with ⟨text, there, _⟩ | ⟨_, unknown⟩
        · exact ⟨_, there, rfl⟩
        · exact absurd passes (Constants.not_passes unknown)
  · intro consistent
    have tags : ∀ k c, (k, c) ∈ entries → info.tags k = c.tag := by
      intro k c member
      cases name : c.name with
      | none => exact (pooled.plain k c member name).1
      | some n =>
          have reference : (n, ConstantTag.utf8) ∈ c.references := by
            rw [Constant.references_of_name name]
            exact List.mem_cons_self
          obtain ⟨other, there, kind⟩ := consistent k c member _ reference
          rcases pooled.named k c member n name with ⟨_, _, tag, _⟩ | ⟨none, _⟩
          · exact tag
          · cases other with
            | utf8 text => exact absurd there (none text)
            | _ => exact nomatch kind
    intro k c member
    refine ⟨tags k c member, fun r checked => ?_⟩
    cases name : c.name with
    | none =>
        rw [Constant.checked_of_plain name] at checked
        obtain ⟨other, there, kind⟩ := consistent k c member r checked
        have placed := laid.placed there
        exact (if_pos placed).trans ((tags _ _ there).trans kind)
    | some n =>
        rw [Constant.checked_of_name name] at checked
        contradiction

theorem verify2_iff (pooled : Pooled makeUtf8Const entries info)
    (laid : Laid info.size 1 entries) : info.verify2 = .ok () ↔ Consistent entries := by
  have passes : info.verifyFrom info.size 1 false = false ↔
      false = false ∧ ∀ k c, (k, c) ∈ entries → info.Passes k c :=
    Constants.verifyFrom_eq_false_iff laid (fun k c member => pooled.keeps member)
      pooled.unresolved (Nat.le_add_left _ _)
  rw [← pooled.passes_iff laid, ← passes.trans (and_iff_right rfl), Constants.verify2]
  cases info.verifyFrom info.size 1 false with
  | false => exact iff_of_true rfl rfl
  | true => exact iff_of_false nofun nofun

end Pooled

theorem Filled.not_isName_zero {info : Constants} {entries : List (Nat × Constant)}
    (filled : Filled makeUtf8Const info entries info.size) (positive : 0 < info.size) :
    ¬ info.isName 0 := by
  rcases filled.covered 0 positive with unknown | ⟨c, member⟩
  · rintro (tag | tag) <;> rw [unknown] at tag <;> contradiction
  · exact absurd (filled.placed 0 c member).1 (by decide)

section

variable (makeUtf8Const) (tags : Nat → ConstantTag) (data : Nat → BitVec 32) (fp : ClassFile)

def opened : Constants :=
  ⟨declared fp, Function.update tags 0 .unknown, Function.update data 0 0⟩

theorem readConstantPool_eq (positive : 0 < declared fp) :
    readConstantPool makeUtf8Const tags data fp = (do
      let (info, fp) ←
        readConstants makeUtf8Const (declared fp) (opened tags data fp) fp.readu2.2 1
      let info ← (List.range' 1 (info.size - 1)).foldlM resolveName info
      .ok (info, fp)) := by
  unfold declared at positive
  simp only [readConstantPool, Constants.setSlot, Constants.setTag, if_pos positive, bind,
    Except.bind]
  rfl

/-- A pool with a slot, whose constants are within it and whose names are too, is rejected or
read into the arrays; the later check accepts it exactly if all references are right. -/
theorem readConstantPool_checked (positive : 0 < declared fp)
    (fits : ∀ k c, (k, c) ∈ constants fp → k + c.slots ≤ declared fp)
    (named : ∀ k c n, (k, c) ∈ constants fp → c.name = some n → n.toNat < declared fp) :
    readConstantPool makeUtf8Const tags data fp = .error .classFormatError ∨
      ∃ info fp', readConstantPool makeUtf8Const tags data fp = .ok (info, fp') ∧
        info.size = declared fp ∧ Laid info.size 1 (constants fp) ∧
        Pooled makeUtf8Const (constants fp) info ∧
        (info.verify2 = .ok () ↔ Consistent (constants fp)) := by
  have filled : Filled makeUtf8Const (opened tags data fp) [] 1 :=
    .start (Function.update_self 0 _ tags)
  have enough : (opened tags data fp).size ≤ 1 + declared fp := Nat.le_add_left _ _
  rw [readConstantPool_eq makeUtf8Const tags data fp positive]
  rcases filled.run (Nat.le_refl 1) enough positive fp.readu2.2 fits with
    failed | ⟨next, fp', result, size, laid, filled⟩
  · rw [failed]
    exact .inl rfl
  · right
    have size : next.size = declared fp := size
    have filled : Filled makeUtf8Const next (constants fp) next.size := size ▸ filled
    have laid : Laid next.size 1 (constants fp) := size ▸ laid
    have inside : ∀ k c n, (k, c) ∈ constants fp → c.name = some n → n.toNat < next.size :=
      size ▸ named
    have start : next.resolvedBelow 1 = next := by
      rw [Constants.resolvedBelow_succ_of_not (filled.not_isName_zero (size ▸ positive))]
      simp [Constants.resolvedBelow]
    have resolved := Constants.resolveNames_eq (i := 1) (next.size - 1) (by omega)
      (filled.named inside)
    rw [start, Nat.add_sub_cancel' (by omega)] at resolved
    have pooled := filled.pooled inside
    refine ⟨next.resolvedBelow next.size, fp', ?_, size, laid, pooled, pooled.verify2_iff laid⟩
    rw [result]
    simp only [bind, Except.bind, resolved]

end

/-! Pools that are read although they are not right. -/

def fileOf (bytes : List (BitVec 8)) : ClassFile where
  memory k := bytes.getD k 0
  buf := 0

/-- A field of the class in slot 9 of two slots is read all the same.  The other three pools
are one without slots, one with a string whose name is behind the end, and one with a constant
of two slots in its last one. -/
theorem malformed_pools :
    (∃ info fp', readConstantPool (fun _ => 0) (fun _ => .unknown) (fun _ => 0)
      (fileOf [0, 2, 9, 0, 9, 0, 1]) = .ok (info, fp') ∧
        ¬ Consistent (constants (fileOf [0, 2, 9, 0, 9, 0, 1]))) ∧
    readConstantPool (fun _ => 0) (fun _ => .unknown) (fun _ => 0) (fileOf [0, 0]) =
      .error .outside ∧
    readConstantPool (fun _ => 0) (fun _ => .unknown) (fun _ => 0) (fileOf [0, 2, 8, 0, 9]) =
      .error .outside ∧
    readConstantPool (fun _ => 0) (fun _ => .unknown) (fun _ => 0)
      (fileOf [0, 2, 5, 0, 0, 0, 0, 0, 0, 0, 1]) = .error .outside := by
  refine ⟨⟨_, _, rfl, fun consistent => ?_⟩, rfl, rfl, rfl⟩
  have read : constants (fileOf [0, 2, 9, 0, 9, 0, 1]) = [(1, .fieldref 9 1)] := rfl
  rw [read] at consistent
  obtain ⟨other, there, _⟩ := consistent 1 _ List.mem_cons_self (9, .className) List.mem_cons_self
  have same : (9 : BitVec 16).toNat = 1 := congrArg Prod.fst (List.mem_singleton.mp there)
  exact absurd same (by decide)

/-- The pool of a class named by a string is read and accepted. -/
theorem readConstantPool_checked_class :
    ∃ info fp', readConstantPool (fun _ => 7) (fun _ => .unknown) (fun _ => 0)
      (fileOf [0, 3, 7, 0, 2, 1, 0, 1, 65]) = .ok (info, fp') ∧ info.size = 3 ∧
        Pooled (fun _ => 7) [(1, .className 2), (2, .utf8 [65])] info ∧ info.verify2 = .ok () := by
  have read : ∀ k c, (k, c) ∈ constants (fileOf [0, 3, 7, 0, 2, 1, 0, 1, 65]) →
      k = 1 ∧ c = .className 2 ∨ k = 2 ∧ c = .utf8 [65] := by
    intro k c member
    have listed : (k, c) ∈ [(1, Constant.className 2), (2, .utf8 [65])] := member
    simpa using listed
  have fits : ∀ k c, (k, c) ∈ constants (fileOf [0, 3, 7, 0, 2, 1, 0, 1, 65]) →
      k + c.slots ≤ 3 := by
    intro k c member
    rcases read k c member with ⟨rfl, rfl⟩ | ⟨rfl, rfl⟩ <;> decide
  have named : ∀ k c n, (k, c) ∈ constants (fileOf [0, 3, 7, 0, 2, 1, 0, 1, 65]) →
      c.name = some n → n.toNat < 3 := by
    intro k c n member name
    rcases read k c member with ⟨rfl, rfl⟩ | ⟨rfl, rfl⟩ <;> cases name
    decide
  rcases readConstantPool_checked (fun _ => 7) (fun _ => .unknown) (fun _ => 0)
    (fileOf [0, 3, 7, 0, 2, 1, 0, 1, 65]) (by decide) fits named with
    failed | ⟨info, fp', result, size, _, pooled, checked⟩
  · exact nomatch failed
  · refine ⟨info, fp', result, size, pooled, checked.mpr fun k c member r reference => ?_⟩
    rcases read k c member with ⟨rfl, rfl⟩ | ⟨rfl, rfl⟩
    · cases List.mem_singleton.mp reference
      exact ⟨.utf8 [65], List.mem_cons_of_mem _ List.mem_cons_self, rfl⟩
    · contradiction

end LaTTe.Classes.ConstantPool
