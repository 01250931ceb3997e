import LaTTe.Classes.InclusionRun
import Mathlib.Data.Fin.VecNotation

namespace LaTTe.Classes

open LaTTe.Data

/-! The matrix and the structural test. -/

variable {Class : Type} {types : Taxonomy Class} {test : InclusionTest Class}
  {loaded : List Class} {c : Class}

structure Ready (types : Taxonomy Class) (loaded : List Class) (c : Class) : Prop where
  new : c ∉ loaded
  usable : (types.info c).isPrimitive = false
  parents : ∀ p, types.Parent c p → p ∈ loaded
  component : ∀ array, (types.info c).arrayType = some array →
    (types.info array.component).isPrimitive = false → array.component ∈ loaded

structure Linked (Class : Type) where
  loaded : List Class
  test : InclusionTest Class

def Unlinked (state : Linked Class) : Prop :=
  ∃ typeRep tableRow encoding, state = ⟨[], .initial typeRep tableRow encoding⟩

structure Consistent (types : Taxonomy Class) (test : InclusionTest Class) (loaded : List Class) :
    Prop where
  laid : test.Laid types.info loaded
  normalDistinct : test.normalHead.Nodup
  arrayDistinct : test.arrayHead.Nodup
  normals : ∀ e, e ∈ test.normalHead ↔ e ∈ loaded ∧ (types.info e).arrayType = none
  arrays : ∀ e, e ∈ test.arrayHead ↔ e ∈ loaded ∧ (types.info e).arrayType ≠ none
  usable : ∀ e ∈ loaded, (types.info e).isPrimitive = false
  parents : ∀ e ∈ loaded, ∀ p, types.Parent e p → p ∈ loaded
  components : ∀ e ∈ loaded, ∀ array, (types.info e).arrayType = some array →
    (types.info array.component).isPrimitive = false → array.component ∈ loaded
  encodings : ∀ e ∈ loaded, ∀ array, (types.info e).arrayType = some array →
    (types.info array.component).isPrimitive = false →
      test.encoding e = makeEncoding (test.typeRep array.component).pos
  bits : ∀ e ∈ loaded, ∀ f ∈ loaded, test.bit e f = true ↔ types.Included e f

namespace Consistent

theorem initial (typeRep : Class → TypeRep) (tableRow : Class → Nat)
    (encoding : Class → BitVec 32) :
    Consistent types (.initial typeRep tableRow encoding) [] := by
  refine ⟨⟨⟨?_, ?_, ?_, ?_, ?_⟩, ?_, ?_, ?_⟩, ?_, ?_, ?_, ?_, ?_, ?_, ?_, ?_, ?_⟩ <;>
    simp [InclusionTest.initial]

theorem descends (consistent : Consistent types test loaded) {e f : Class} (member : e ∈ loaded)
    (descends : types.Descends e f) : f ∈ loaded := by
  induction descends with
  | refl => exact member
  | tail _ parent ih => exact consistent.parents _ ih _ parent

theorem inner (consistent : Consistent types test loaded) {e : Class} {array : ArrayType Class}
    (member : e ∈ loaded) (isArray : (types.info e).arrayType = some array) {dimension : Nat}
    (positive : 0 < dimension) (within : dimension ≤ array.dimension) :
    ∃ f ∈ loaded, ∃ other, (types.info f).arrayType = some other ∧
      other.element = array.element ∧ other.dimension = dimension := by
  induction size : array.dimension generalizing e array with
  | zero => omega
  | succ n ih =>
      rcases Nat.lt_or_eq_of_le within with less | same
      · obtain ⟨inner, innerArray, element, dimension_eq⟩ :=
          Taxonomy.component_array isArray (by omega)
        have usable := (types.array_top _ inner innerArray).2.2
        obtain ⟨f, known, other, isOther, element', dimension'⟩ :=
          ih (consistent.components e member array isArray usable) innerArray (by omega) (by omega)
        exact ⟨f, known, other, isOther, element'.trans element, dimension'⟩
      · exact ⟨e, member, array, isArray, rfl, same.symm⟩

theorem element (consistent : Consistent types test loaded) {e : Class} {array : ArrayType Class}
    (member : e ∈ loaded) (isArray : (types.info e).arrayType = some array)
    (usable : (types.info array.element).isPrimitive = false) : array.element ∈ loaded := by
  obtain ⟨f, known, other, isOther, element, dimension⟩ :=
    consistent.inner member isArray Nat.one_pos (Taxonomy.dimension_pos isArray)
  rw [← element, ← Taxonomy.component_element isOther dimension] at usable ⊢
  exact consistent.components f known other isOther usable

end Consistent

theorem Taxonomy.array_element_normal {array : ArrayType Class}
    (isArray : (types.info c).arrayType = some array) :
    (types.info array.element).arrayType = none := by
  rw [(types.array_shape c array isArray).1]
  exact Taxonomy.element_normal array.component

theorem Taxonomy.included_normal {e f : Class} (normal : (types.info e).arrayType = none) :
    types.Included e f ↔ types.Descends e f := by
  rw [Taxonomy.Included, or_iff_left]
  rintro ⟨array, _, isArray, _⟩
  rw [normal] at isArray
  cases isArray

theorem Ready.comparable (ready : Ready types loaded c) (consistent : Consistent types test loaded)
    {array : ArrayType Class} (isArray : (types.info c).arrayType = some array) {tmp : Class}
    (member : tmp ∈ test.arrayHead) : InclusionTest.Comparable types loaded array tmp := by
  obtain ⟨known, isOther⟩ := (consistent.arrays tmp).mp member
  refine ⟨known, ?_, ?_, isOther⟩
  · intro usable
    by_cases one : array.dimension = 1
    · rw [← Taxonomy.component_element isArray one] at usable ⊢
      exact ready.component array isArray usable
    · have positive := Taxonomy.dimension_pos isArray
      obtain ⟨inner, innerArray, element, _⟩ := Taxonomy.component_array isArray (by omega)
      have innerUsable := (types.array_top _ inner innerArray).2.2
      rw [← element] at usable ⊢
      exact consistent.element (ready.component array isArray innerUsable) innerArray usable
  · intro other isOther
    have unique : array.element = other.element → array.dimension ≠ other.dimension := by
      intro element dimension
      exact ready.new (Taxonomy.array_ext isArray isOther element dimension ▸ known)
    refine ⟨consistent.element known isOther, Taxonomy.array_element_normal isOther, unique, ?_⟩
    intro object object'
    -- otherwise `c` would be one of the inner arrays of `tmp`
    by_contra more
    obtain ⟨f, known', inner, isInner, element, dimension⟩ :=
      consistent.inner known isOther (Taxonomy.dimension_pos isArray) (Nat.le_of_not_lt more)
    have same := Taxonomy.array_ext isArray isInner (object.trans (object'.symm.trans element.symm))
      dimension.symm
    exact ready.new (same ▸ known')

theorem Ready.descends_iff (ready : Ready types loaded c) (consistent : Consistent types test loaded)
    {d : Class} (member : d ∈ loaded) :
    types.Descends c d ↔
      (∃ s, (types.info c).superclass = some s ∧ test.bit s d = true) ∨
        ∃ i ∈ (types.info c).interfaces, test.bit i d = true := by
  have different : c ≠ d := fun same => ready.new (same ▸ member)
  have leads (p : Class) (parent : types.Parent c p) :
      test.bit p d = true ↔ types.Descends p d := by
    rw [consistent.bits p (ready.parents p parent) d member,
      Taxonomy.included_normal parent.normal]
  rw [Taxonomy.descends_iff, or_iff_right different]
  constructor
  · rintro ⟨p, super | interface, descends⟩
    · exact .inl ⟨p, super, (leads p (.inl super)).mpr descends⟩
    · exact .inr ⟨p, interface, (leads p (.inr interface)).mpr descends⟩
  · rintro (⟨s, super, set⟩ | ⟨i, interface, set⟩)
    · exact ⟨s, .inl super, (leads s (.inl super)).mp set⟩
    · exact ⟨i, .inr interface, (leads i (.inr interface)).mp set⟩

theorem Ready.not_above (ready : Ready types loaded c) (consistent : Consistent types test loaded)
    {e : Class} (member : e ∈ loaded) : ¬ types.Descends e c :=
  fun descends => ready.new (consistent.descends member descends)

variable [DecidableEq Class]

inductive Link (types : Taxonomy Class) (state next : Linked Class) : Prop where
  | link (c : Class) (ready : Ready types state.loaded c)
      (updated : next = ⟨c :: state.loaded, state.test.updateClassHierarchy types c⟩)

/-- A wider matrix. -/
theorem Consistent.widened (consistent : Consistent types test loaded) :
    ∃ wider, (if test.bitvecSize * 32 ≤ test.columnIdx then test.expandBinaryMatrix types.info
        else test) = wider ∧
      Consistent types wider loaded ∧ wider.columnIdx < 32 * wider.bitvecSize := by
  have fits := consistent.laid.fits
  by_cases full : test.bitvecSize * 32 ≤ test.columnIdx
  · rw [if_pos full]
    obtain ⟨laid, same, bits⟩ := consistent.laid.expandBinaryMatrix consistent.normalDistinct
      consistent.arrayDistinct (fun e member => ((consistent.normals e).mp member).1)
      (fun e member => ((consistent.arrays e).mp member).1)
      (fun e member => by
        rw [consistent.normals, consistent.arrays]
        by_cases isArray : (types.info e).arrayType = none
        · exact .inl ⟨member, isArray⟩
        · exact .inr ⟨member, isArray⟩)
      fun e inNormal inArrays =>
        ((consistent.arrays e).mp inArrays).2 ((consistent.normals e).mp inNormal).2
    refine ⟨_, rfl, ⟨laid, ?_, ?_, ?_, ?_, consistent.usable, consistent.parents,
      consistent.components, ?_, ?_⟩, ?_⟩
    · rw [same.normalHead]
      exact consistent.normalDistinct
    · rw [same.arrayHead]
      exact consistent.arrayDistinct
    · rw [same.normalHead]
      exact consistent.normals
    · rw [same.arrayHead]
      exact consistent.arrays
    · intro e member array isArray usable
      rw [same.encoding, same.pos]
      exact consistent.encodings e member array isArray usable
    · intro e member f member'
      rw [← consistent.bits e member f member', InclusionTest.bit, InclusionTest.bit,
        bits e member, same.pos]
    · rw [same.columnIdx, same.bitvecSize]
      unfold expandBitvecSize
      dsimp only
      omega
  · rw [if_neg full]
    exact ⟨test, rfl, consistent, by omega⟩

/-- The matrix with another class, once its row and its column are right. -/
theorem Consistent.extend (consistent : Consistent types test loaded) (ready : Ready types loaded c)
    {after : InclusionTest Class} (laid : after.Laid types.info (c :: loaded))
    (normalHead : after.normalHead =
      if (types.info c).arrayType = none then c :: test.normalHead else test.normalHead)
    (arrayHead : after.arrayHead =
      if (types.info c).arrayType = none then test.arrayHead else c :: test.arrayHead)
    (pos : ∀ e ∈ loaded, (after.typeRep e).pos = (test.typeRep e).pos)
    (encoding : ∀ e ∈ loaded, after.encoding e = test.encoding e)
    (own : ∀ array, (types.info c).arrayType = some array →
      (types.info array.component).isPrimitive = false →
        after.encoding c = makeEncoding (test.typeRep array.component).pos)
    (old : ∀ e ∈ loaded, ∀ f ∈ loaded, after.bit e f = true ↔ test.bit e f = true)
    (row : ∀ f ∈ loaded, after.bit c f = true ↔ types.Included c f)
    (column : ∀ e ∈ loaded, after.bit e c = true ↔ types.Included e c)
    (self : after.bit c c = true) :
    Consistent types after (c :: loaded) := by
  have notNormal : c ∉ test.normalHead := fun member => ready.new ((consistent.normals c).mp member).1
  have notArray : c ∉ test.arrayHead := fun member => ready.new ((consistent.arrays c).mp member).1
  refine ⟨laid, ?_, ?_, ?_, ?_, ?_, ?_, ?_, ?_, ?_⟩
  · rw [normalHead]
    split
    · exact List.nodup_cons.mpr ⟨notNormal, consistent.normalDistinct⟩
    · exact consistent.normalDistinct
  · rw [arrayHead]
    split
    · exact consistent.arrayDistinct
    · exact List.nodup_cons.mpr ⟨notArray, consistent.arrayDistinct⟩
  · intro e
    rw [normalHead]
    by_cases same : e = c
    · subst same
      split
      · rename_i normal
        simp [normal]
      · rename_i isArray
        simp [isArray, notNormal]
    · split <;> simp [same, consistent.normals]
  · intro e
    rw [arrayHead]
    by_cases same : e = c
    · subst same
      split
      · rename_i normal
        simp [normal, notArray]
      · rename_i isArray
        simp [isArray]
    · split <;> simp [same, consistent.arrays]
  · intro e member
    rcases List.mem_cons.mp member with rfl | known
    · exact ready.usable
    · exact consistent.usable e known
  · intro e member p parent
    rcases List.mem_cons.mp member with rfl | known
    · exact List.mem_cons_of_mem _ (ready.parents p parent)
    · exact List.mem_cons_of_mem _ (consistent.parents e known p parent)
  · intro e member array isArray usable
    rcases List.mem_cons.mp member with rfl | known
    · exact List.mem_cons_of_mem _ (ready.component array isArray usable)
    · exact List.mem_cons_of_mem _ (consistent.components e known array isArray usable)
  · intro e member array isArray usable
    rcases List.mem_cons.mp member with rfl | known
    · rw [pos _ (ready.component array isArray usable)]
      exact own array isArray usable
    · rw [encoding e known, pos _ (consistent.components e known array isArray usable)]
      exact consistent.encodings e known array isArray usable
  · intro e member f member'
    rcases List.mem_cons.mp member with rfl | known
    · rcases List.mem_cons.mp member' with rfl | known'
      · exact iff_of_true self (.inl .refl)
      · exact row f known'
    · rcases List.mem_cons.mp member' with rfl | known'
      · exact column e known
      · rw [old e known f known']
        exact consistent.bits e known f known'

theorem Consistent.updateNormal (consistent : Consistent types test loaded)
    (ready : Ready types loaded c) (normal : (types.info c).arrayType = none)
    {start : InclusionTest Class} (entered : InclusionTest.Entered test start types.info loaded c) :
    Consistent types (start.updateNormal types.info c) (c :: loaded) := by
  generalize after_eq : (types.info c).interfaces.foldl
    (fun test interface => test.setRow c ((test.row c).or (test.row interface))) start = after
  have members : ∀ i ∈ (types.info c).interfaces, i ∈ loaded := fun i member =>
    ready.parents i (.inr member)
  obtain ⟨laid, same, row, old⟩ := entered.laid.interfaces ready.new members after_eq
  have result : start.updateNormal types.info c = { after with normalHead := c :: after.normalHead } := by
    rw [InclusionTest.updateNormal, after_eq]
  rw [result]
  apply consistent.extend ready
  · exact ⟨⟨laid.column, laid.columns, laid.row, laid.rows, laid.table⟩, laid.fits, laid.long,
      laid.clear⟩
  · rw [if_pos normal, same.normalHead, entered.normalHead]
  · rw [if_pos normal]
    exact same.arrayHead.trans entered.arrayHead
  · intro e member
    exact (same.pos e).trans (entered.pos e member)
  · intro e member
    exact (congrFun same.encoding e).trans (congrFun entered.encoding e)
  · intro array isArray
    rw [normal] at isArray
    cases isArray
  · intro e member f member'
    change after.bit e f = true ↔ _
    rw [old e member f, entered.old e member f member']
  · intro f member
    change after.bit c f = true ↔ _
    rw [row f (List.mem_cons_of_mem c member), entered.row f member,
      Taxonomy.included_normal normal, ready.descends_iff consistent member]
    apply or_congr_right
    apply exists_congr
    intro i
    apply and_congr_right
    intro interface
    rw [entered.old i (members i interface) f member]
  · intro e member
    change after.bit e c = true ↔ _
    rw [old e member c, entered.column e member]
    apply iff_of_false Bool.false_ne_true
    rintro (descends | ⟨_, other, _, isOther, _⟩)
    · exact ready.not_above consistent member descends
    · rw [normal] at isOther
      cases isOther
  · exact (row c List.mem_cons_self).mpr (.inl entered.self)

theorem Consistent.updateArray (consistent : Consistent types test loaded)
    (ready : Ready types loaded c) {array : ArrayType Class}
    (isArray : (types.info c).arrayType = some array)
    {start : InclusionTest Class} (entered : InclusionTest.Entered test start types.info loaded c) :
    Consistent types (start.updateArray types c array) (c :: loaded) := by
  have different : ∀ e ∈ loaded, e ≠ c := fun e member same => ready.new (same ▸ member)
  have notNormal : (types.info c).arrayType ≠ none := by simp [isArray]
  generalize encoded_eq : (if (types.info array.component).isPrimitive then start else
    { start with
      encoding := Function.update start.encoding c
        (makeEncoding (start.typeRep array.component).pos) }) = encoded
  have laidEncoded : encoded.Laid types.info (c :: loaded) := by
    rw [← encoded_eq]
    have laid := entered.laid
    split
    · exact laid
    · exact ⟨⟨laid.column, laid.columns, laid.row, laid.rows, laid.table⟩, laid.fits, laid.long,
        laid.clear⟩
  obtain ⟨bits, typeRep, normalHead, arrayHead⟩ : (∀ e f, encoded.bit e f = start.bit e f) ∧
      encoded.typeRep = start.typeRep ∧ encoded.normalHead = start.normalHead ∧
        encoded.arrayHead = start.arrayHead := by
    rw [← encoded_eq]
    split
    · exact ⟨fun _ _ => rfl, rfl, rfl, rfl⟩
    · exact ⟨fun _ _ => rfl, rfl, rfl, rfl⟩
  generalize after_eq : encoded.arrayHead.foldl
    (fun test tmp => test.updateAgainst types c array tmp) encoded = after
  have listed : encoded.arrayHead = test.arrayHead := arrayHead.trans entered.arrayHead
  have elements : ∀ e ∈ loaded, ∀ f ∈ loaded, (types.info e).arrayType = none →
      (encoded.bit e f = true ↔ types.Descends e f) := by
    intro e member f member' flat
    rw [bits, entered.old e member f member', consistent.bits e member f member',
      Taxonomy.included_normal flat]
  obtain ⟨laid, same, crossing⟩ := laidEncoded.arrays (Taxonomy.array_element_normal isArray)
    notNormal (fun tmp member => ready.comparable consistent isArray (listed ▸ member)) ready.new
    elements after_eq
  have result : start.updateArray types c array = { after with arrayHead := c :: after.arrayHead } := by
    rw [InclusionTest.updateArray, encoded_eq, after_eq]
  rw [result]
  apply consistent.extend ready
  · exact ⟨⟨laid.column, laid.columns, laid.row, laid.rows, laid.table⟩, laid.fits, laid.long,
      laid.clear⟩
  · rw [if_neg notNormal]
    exact same.normalHead.trans (normalHead.trans entered.normalHead)
  · rw [if_neg notNormal, same.arrayHead, listed]
  · intro e member
    refine (same.pos e).trans ?_
    rw [typeRep]
    exact entered.pos e member
  · intro e member
    refine (congrFun same.encoding e).trans ?_
    rw [← entered.encoding, ← encoded_eq]
    split
    · rfl
    · exact Function.update_of_ne (different e member) _ _
  · intro other isOther usable
    rw [isArray, Option.some.injEq] at isOther
    subst isOther
    refine (congrFun same.encoding c).trans ?_
    rw [← encoded_eq, usable, if_neg Bool.false_ne_true,
      ← entered.pos _ (ready.component array isArray usable)]
    exact Function.update_self _ _ _
  · intro e member f member'
    change after.bit e f = true ↔ _
    rw [crossing e (List.mem_cons_of_mem c member) f (List.mem_cons_of_mem c member'), bits,
      entered.old e member f member', or_iff_left]
    rintro (⟨same, _⟩ | ⟨same, _⟩)
    · exact different e member same
    · exact different f member' same
  · intro f member
    change after.bit c f = true ↔ _
    rw [crossing c List.mem_cons_self f (List.mem_cons_of_mem c member), bits,
      entered.row f member, Taxonomy.Included, ready.descends_iff consistent member,
      (types.array_top c array isArray).2.1]
    simp only [List.not_mem_nil, false_and, exists_false, or_false]
    apply or_congr_right
    rw [InclusionTest.Crossing, listed, consistent.arrays]
    constructor
    · rintro (⟨_, _, other, isOther, included⟩ | ⟨same, _⟩)
      · exact ⟨array, other, isArray, isOther, included⟩
      · exact absurd same (different f member)
    · rintro ⟨own, other, isOwn, isOther, included⟩
      rw [isArray, Option.some.injEq] at isOwn
      subst isOwn
      exact .inl ⟨rfl, ⟨member, by simp [isOther]⟩, other, isOther, included⟩
  · intro e member
    change after.bit e c = true ↔ _
    rw [crossing e (List.mem_cons_of_mem c member) c List.mem_cons_self, bits,
      entered.column e member, Taxonomy.Included,
      or_iff_right (ready.not_above consistent member), or_iff_right Bool.false_ne_true]
    simp only [InclusionTest.Crossing, listed, consistent.arrays, true_and]
    constructor
    · rintro (⟨same, _⟩ | ⟨_, other, isOther, included⟩)
      · exact absurd same (different e member)
      · exact ⟨other, array, isOther, isArray, included⟩
    · rintro ⟨other, own, isOther, isOwn, included⟩
      rw [isArray, Option.some.injEq] at isOwn
      subst isOwn
      exact .inr ⟨⟨member, by simp [isOther]⟩, other, isOther, included⟩
  · refine (crossing c List.mem_cons_self c List.mem_cons_self).mpr (.inl ?_)
    rw [bits]
    exact entered.self

theorem Consistent.update (consistent : Consistent types test loaded)
    (ready : Ready types loaded c) :
    Consistent types (test.updateClassHierarchy types c) (c :: loaded) := by
  obtain ⟨wider, wider_eq, consistent, room⟩ := consistent.widened
  have entered := consistent.laid.enter ready.new room fun s super => ready.parents s (.inl super)
  rw [InclusionTest.updateClassHierarchy, wider_eq]
  cases isArray : (types.info c).arrayType with
  | none => exact consistent.updateNormal ready isArray entered
  | some array => exact consistent.updateArray ready isArray entered

theorem consistent_of_reachable {state : Linked Class}
    (reached : Reachable Unlinked (Link types) state) :
    Consistent types state.test state.loaded := by
  apply reached.invariant fun state => Consistent types state.test state.loaded
  · rintro state ⟨typeRep, tableRow, encoding, rfl⟩
    exact .initial typeRep tableRow encoding
  · rintro state next consistent ⟨c, ready, rfl⟩
    exact consistent.update ready

/-- Where the matrix differs from the structural test: arrays of `Object` with fewer dimensions
are missed for an array of `Object`, and arrays of other types that are no objects count as
arrays of `Object` with the same dimensions. -/
def Missed (types : Taxonomy Class) (oc c : Class) : Prop :=
  ∃ array other, (types.info oc).arrayType = some array ∧ (types.info c).arrayType = some other ∧
    other.element = types.objectClass ∧
    (array.element = types.objectClass ∧ other.dimension < array.dimension ∨
      array.dimension = other.dimension ∧ ¬ types.Descends array.element types.objectClass)

/-- Both tests for two array classes. -/
theorem array_tests_agree {oc : Class} {array other : ArrayType Class}
    (isArray : (types.info oc).arrayType = some array)
    (isOther : (types.info c).arrayType = some other) :
    (types.Included oc c ↔ instanceofArray types c oc = true) ↔ ¬ Missed types oc c := by
  obtain ⟨element, dimension⟩ := Taxonomy.elementOf_array isArray
  obtain ⟨element', dimension'⟩ := Taxonomy.elementOf_array isOther
  have notObject : types.objectClass ≠ c := by
    rintro rfl
    rw [types.object_top.2.2.2] at isOther
    cases isOther
  have same_iff : oc = c ↔ array.element = other.element ∧ array.dimension = other.dimension := by
    constructor
    · rintro rfl
      rw [isArray, Option.some.injEq] at isOther
      exact ⟨congrArg ArrayType.element isOther, congrArg ArrayType.dimension isOther⟩
    · exact fun both => Taxonomy.array_ext isArray isOther both.1 both.2
  have included_iff : types.Included oc c ↔ oc = c ∨ types.ArrayIncluded array other := by
    rw [Taxonomy.Included, Taxonomy.descends_array isArray, or_iff_left notObject]
    apply or_congr_right
    constructor
    · rintro ⟨own, another, isOwn, isAnother, included⟩
      rw [isArray, Option.some.injEq] at isOwn
      rw [isOther, Option.some.injEq] at isAnother
      exact isOwn ▸ isAnother ▸ included
    · exact fun included => ⟨array, other, isArray, isOther, included⟩
  have missed_iff : Missed types oc c ↔ other.element = types.objectClass ∧
      (array.element = types.objectClass ∧ other.dimension < array.dimension ∨
        array.dimension = other.dimension ∧
          ¬ types.Descends array.element types.objectClass) := by
    constructor
    · rintro ⟨own, another, isOwn, isAnother, missed⟩
      rw [isArray, Option.some.injEq] at isOwn
      rw [isOther, Option.some.injEq] at isAnother
      exact isOwn ▸ isAnother ▸ missed
    · exact fun missed => ⟨array, other, isArray, isOther, missed⟩
  rw [included_iff, instanceofArray_iff, missed_iff, element, element', dimension, dimension',
    same_iff]
  unfold Taxonomy.ArrayIncluded
  by_cases object' : other.element = types.objectClass
  · by_cases object : array.element = types.objectClass
    · -- two arrays of `Object`
      simp only [object', object, types.object_top.2.2.1, Taxonomy.descends_object, ne_eq,
        not_true_eq_false, false_and, and_false, or_false, true_and, and_true, or_self]
      omega
    · have usable := types.object_top.2.2.1
      simp only [object', object, usable, ne_eq, not_true_eq_false, not_false_eq_true, false_and,
        or_false, false_or, true_and, and_true]
      by_cases descends : types.Descends array.element types.objectClass
      · simp only [descends, and_true, not_true_eq_false, and_false, not_false_eq_true, iff_true]
        omega
      · simp only [descends, and_false, or_false, not_false_eq_true, and_true]
        omega
  · simp only [object', ne_eq, not_false_eq_true, false_and, and_false, true_and, false_or,
      iff_true]
    by_cases object : array.element = types.objectClass
    · have apart : ¬ types.objectClass = other.element := fun same => object' same.symm
      simp [object, Taxonomy.descends_object, apart]
    · simp only [object, not_false_eq_true, true_and]
      constructor
      · rintro (⟨sameElement, sameDimension⟩ | ⟨sameDimension, _, usable, descends⟩)
        · exact ⟨sameDimension.symm, .inl sameElement⟩
        · exact ⟨sameDimension.symm, .inr ⟨usable, descends⟩⟩
      · rintro ⟨sameDimension, sameElement | ⟨usable, descends⟩⟩
        · exact .inl ⟨sameElement, sameDimension.symm⟩
        · cases primitive : (types.info array.element).isPrimitive with
          | false => exact .inr ⟨sameDimension.symm, rfl, usable, descends⟩
          | true =>
              obtain ⟨super, interfaces⟩ := types.primitive_top _ primitive
              exact .inl ⟨(Taxonomy.descends_of_top super interfaces).mp descends,
                sameDimension.symm⟩

/-- Whatever is linked, in any order: `CIT_is_subclass` gives the answer of `instanceof`, but
for arrays of `Object`. -/
theorem isSubclass_eq_instanceof_iff {state : Linked Class}
    (reached : Reachable Unlinked (Link types) state) {oc c : Class} (linked : oc ∈ state.loaded)
    (linked' : c ∈ state.loaded) :
    state.test.isSubclass oc c = instanceof types c oc ↔ ¬ Missed types oc c := by
  have consistent := consistent_of_reachable reached
  rw [Bool.eq_iff_iff, InclusionTest.isSubclass, consistent.bits oc linked c linked', instanceof]
  cases isOther : (types.info c).arrayType with
  | none =>
      have included_iff : types.Included oc c ↔ types.Descends oc c := by
        rw [Taxonomy.Included, or_iff_left]
        rintro ⟨_, other, _, isArray, _⟩
        rw [isOther] at isArray
        cases isArray
      rw [Option.isSome_none, if_neg Bool.false_ne_true, instanceofClass_iff, included_iff]
      apply iff_of_true Iff.rfl
      rintro ⟨_, other, _, isArray, _⟩
      rw [isOther] at isArray
      cases isArray
  | some other =>
      rw [Option.isSome_some, if_pos rfl]
      cases isArray : (types.info oc).arrayType with
      | some array => exact array_tests_agree isArray isOther
      | none =>
          have flat : dimensionOf types.info oc = 0 := by rw [dimensionOf, isArray]
          have positive := Taxonomy.dimension_pos isOther
          have notArray : oc ≠ c := by
            rintro rfl
            rw [isArray] at isOther
            cases isOther
          have included_iff : types.Included oc c ↔ types.Descends oc c :=
            Taxonomy.included_normal isArray
          rw [included_iff, instanceofArray_iff, flat, (Taxonomy.elementOf_array isOther).2]
          refine iff_of_true (iff_of_false ?_ ?_) ?_
          · exact fun descends => notArray (descends.array (by simp [isOther]))
          · rintro (⟨less, _⟩ | ⟨same, _⟩)
            · exact Nat.not_lt_zero _ less
            · exact Nat.ne_of_gt positive same
          · rintro ⟨array, _, isOwn, _⟩
            rw [isArray] at isOwn
            cases isOwn

instance (types : Taxonomy Class) (c p : Class) : Decidable (types.Parent c p) :=
  inferInstanceAs (Decidable (_ ∨ _))

def arraysOfObject : Taxonomy (Fin 5) where
  info := ![⟨none, [], false, none, true⟩, ⟨none, [], true, none, false⟩,
    ⟨some 0, [], false, some ⟨0, 0, 1⟩, true⟩, ⟨some 0, [], false, some ⟨2, 0, 2⟩, true⟩,
    ⟨some 0, [], false, some ⟨1, 1, 1⟩, true⟩]
  objectClass := 0
  depth := ![0, 0, 1, 2, 1]
  superclass_depth := by decide
  interface_depth := by decide
  component_depth := by decide
  superclass_normal := by decide
  interface_normal := by decide
  array_top := by decide
  array_shape := by decide
  array_unique := by decide
  object_top := by decide
  primitive_top := by decide

def arraysOfObjectLinked : Linked (Fin 5) :=
  [0, 2, 3, 4].foldl
    (fun state c => ⟨c :: state.loaded, state.test.updateClassHierarchy arraysOfObject c⟩)
    ⟨[], .initial (fun _ => ⟨0, 0⟩) (fun _ => 0) fun _ => 0⟩

theorem arraysOfObject_reachable :
    Reachable Unlinked (Link arraysOfObject) arraysOfObjectLinked := by
  have component (c : Fin 5) (loaded : List (Fin 5)) (below : ∀ array,
      (arraysOfObject.info c).arrayType = some array →
        (arraysOfObject.info array.component).isPrimitive = true ∨ array.component ∈ loaded) :
      ∀ array, (arraysOfObject.info c).arrayType = some array →
        (arraysOfObject.info array.component).isPrimitive = false → array.component ∈ loaded := by
    intro array isArray usable
    exact (below array isArray).resolve_left (by simp [usable])
  have start : Reachable Unlinked (Link arraysOfObject)
      ⟨[], .initial (fun _ => ⟨0, 0⟩) (fun _ => 0) fun _ => 0⟩ := .start ⟨_, _, _, rfl⟩
  have object := start.tail
    (.link 0 ⟨by decide, by decide, by decide, component 0 _ (by decide)⟩ rfl)
  have objects := object.tail
    (.link 2 ⟨by decide, by decide, by decide, component 2 _ (by decide)⟩ rfl)
  have arrays := objects.tail
    (.link 3 ⟨by decide, by decide, by decide, component 3 _ (by decide)⟩ rfl)
  exact arrays.tail (.link 4 ⟨by decide, by decide, by decide, component 4 _ (by decide)⟩ rfl)

/-- `Object[][]` is no `Object[]` for the matrix, and both tests agree on `int[]` and `Object`. -/
theorem isSubclass_eq_instanceof_iff_arrays :
    ¬ arraysOfObjectLinked.test.isSubclass 3 2 = instanceof arraysOfObject 2 3 ∧
      arraysOfObjectLinked.test.isSubclass 4 0 = instanceof arraysOfObject 0 4 := by
  constructor
  · rw [isSubclass_eq_instanceof_iff arraysOfObject_reachable (by decide) (by decide), not_not]
    exact ⟨⟨2, 0, 2⟩, ⟨0, 0, 1⟩, rfl, rfl, rfl, .inl ⟨rfl, by decide⟩⟩
  · rw [isSubclass_eq_instanceof_iff arraysOfObject_reachable (by decide) (by decide)]
    rintro ⟨_, _, _, isArray, _⟩
    cases isArray

end LaTTe.Classes
