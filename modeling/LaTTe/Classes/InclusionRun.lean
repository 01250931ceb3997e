import LaTTe.Classes.InclusionRows
import LaTTe.Classes.InclusionTypes

namespace LaTTe.Classes

open LaTTe.Data

/-! The matrix while classes are linked, in any order in which a class comes behind the classes
it is made of. -/

namespace InclusionTest

variable {Class : Type} {types : Taxonomy Class} {test : InclusionTest Class}
  {loaded : List Class} {c : Class} {info : Class → ClassInfo Class}

theorem bit_setRow_self (test : InclusionTest Class) (c d : Class) (row : BitRow) :
    (test.setRow c row).bit c d = row.test (test.typeRep d).pos := by
  rw [bit, setRow_row_self]
  rfl

theorem Placed.bit_setRow {known : List Class} (placed : Placed test info known) {e : Class}
    (inKnown : c ∈ known) (member : e ∈ known) (different : e ≠ c) (row : BitRow) (d : Class) :
    (test.setRow c row).bit e d = test.bit e d := by
  rw [bit, placed.setRow_row inKnown member different]
  rfl

/-- The rows of the interfaces are added. -/
theorem Laid.interfaces {interfaces : List Class} (laid : Laid test info (c :: loaded))
    (new : c ∉ loaded) (members : ∀ i ∈ interfaces, i ∈ loaded) {after : InclusionTest Class}
    (after_eq : interfaces.foldl
      (fun test interface => test.setRow c ((test.row c).or (test.row interface))) test = after) :
    Laid after info (c :: loaded) ∧ SameColumns test after ∧
      (∀ d ∈ c :: loaded, after.bit c d = true ↔
        test.bit c d = true ∨ ∃ i ∈ interfaces, test.bit i d = true) ∧
      ∀ e ∈ loaded, ∀ d, after.bit e d = test.bit e d := by
  induction interfaces generalizing test with
  | nil =>
      obtain rfl : test = after := after_eq
      exact ⟨laid, .refl _, by simp, fun _ _ _ => rfl⟩
  | cons i rest ih =>
      have known := List.mem_cons_of_mem c (members i List.mem_cons_self)
      have same : (test.row c).length = (test.row i).length := by
        rw [laid.long c List.mem_cons_self, laid.long i known]
      have step : Laid (test.setRow c ((test.row c).or (test.row i))) info (c :: loaded) := by
        apply laid.setRow List.mem_cons_self
        · rw [BitRow.or, List.length_zipWith, ← same, Nat.min_self,
            laid.long c List.mem_cons_self]
        · intro j beyond
          rw [BitRow.test_or same, laid.clear c List.mem_cons_self j beyond,
            laid.clear i known j beyond, Bool.or_self]
      have kept : ∀ e ∈ loaded, ∀ d,
          (test.setRow c ((test.row c).or (test.row i))).bit e d = test.bit e d := by
        intro e member d
        exact laid.bit_setRow List.mem_cons_self (List.mem_cons_of_mem c member)
          (fun same => new (same ▸ member)) _ _
      obtain ⟨laid', same', row, old⟩ :=
        ih step (fun j member => members j (List.mem_cons_of_mem i member)) after_eq
      refine ⟨laid', (setRow_sameColumns _ _ _).trans same', fun d member => ?_, ?_⟩
      · rw [row d member, bit_setRow_self, BitRow.test_or same, Bool.or_eq_true, or_assoc]
        apply or_congr_right
        simp only [List.exists_mem_cons_iff]
        apply or_congr_right
        constructor
        · rintro ⟨j, inRest, set⟩
          rw [kept j (members j (List.mem_cons_of_mem i inRest)) d] at set
          exact ⟨j, inRest, set⟩
        · rintro ⟨j, inRest, set⟩
          refine ⟨j, inRest, ?_⟩
          rw [kept j (members j (List.mem_cons_of_mem i inRest)) d]
          exact set
      · intro e member d
        rw [old e member d, kept e member d]

structure Comparable (types : Taxonomy Class) (loaded : List Class) (array : ArrayType Class)
    (tmp : Class) : Prop where
  known : tmp ∈ loaded
  element : (types.info array.element).isPrimitive = false → array.element ∈ loaded
  others : ∀ other, (types.info tmp).arrayType = some other →
    ((types.info other.element).isPrimitive = false → other.element ∈ loaded) ∧
      (types.info other.element).arrayType = none ∧
      (array.element = other.element → array.dimension ≠ other.dimension) ∧
      (array.element = types.objectClass → other.element = types.objectClass →
        other.dimension < array.dimension)
  isArray : (types.info tmp).arrayType ≠ none

/-- The bits between `c` and the array classes of `list`. -/
def Crossing (types : Taxonomy Class) (array : ArrayType Class) (c : Class) (list : List Class)
    (e f : Class) : Prop :=
  e = c ∧ f ∈ list ∧ (∃ other, (types.info f).arrayType = some other ∧
      types.ArrayIncluded array other) ∨
    f = c ∧ e ∈ list ∧ ∃ other, (types.info e).arrayType = some other ∧
      types.ArrayIncluded other array

theorem crossing_cons {array : ArrayType Class} {list : List Class} {tmp e f : Class} :
    Crossing types array c (tmp :: list) e f ↔
      Crossing types array c [tmp] e f ∨ Crossing types array c list e f := by
  unfold Crossing
  simp only [List.mem_cons, List.not_mem_nil, or_false, or_and_right, and_or_left]
  exact or_or_or_comm

variable [DecidableEq Class]

structure Entered (test after : InclusionTest Class) (info : Class → ClassInfo Class)
    (loaded : List Class) (c : Class) : Prop where
  laid : Laid after info (c :: loaded)
  columnIdx : after.columnIdx = test.columnIdx + 1
  normalHead : after.normalHead = test.normalHead
  arrayHead : after.arrayHead = test.arrayHead
  encoding : after.encoding = test.encoding
  pos : ∀ e ∈ loaded, (after.typeRep e).pos = (test.typeRep e).pos
  old : ∀ e ∈ loaded, ∀ d ∈ loaded, after.bit e d = test.bit e d
  column : ∀ e ∈ loaded, after.bit e c = false
  row : ∀ d ∈ loaded, after.bit c d = true ↔
    ∃ s, (info c).superclass = some s ∧ test.bit s d = true
  self : after.bit c c = true

/-- The new column and the new row before anything is written to them. -/
theorem Laid.newRow (laid : Laid test info loaded) (new : c ∉ loaded)
    (room : test.columnIdx < 32 * test.bitvecSize) {opened : InclusionTest Class}
    (opened_eq : opened = allocateRow
      { test with
        typeRep := Function.update test.typeRep c ⟨test.columnIdx, (test.typeRep c).row⟩
        columnIdx := test.columnIdx + 1 } info c (List.replicate test.bitvecSize 0)) :
    Laid opened info (c :: loaded) ∧
      (∀ e ∈ loaded, opened.row e = test.row e) ∧
      (∀ e ∈ loaded, (opened.typeRep e).pos = (test.typeRep e).pos) ∧
      (opened.typeRep c).pos = test.columnIdx ∧ opened.columnIdx = test.columnIdx + 1 := by
  have different : ∀ e ∈ loaded, e ≠ c := fun e member same => new (same ▸ member)
  generalize start_eq : ({ test with
    typeRep := Function.update test.typeRep c ⟨test.columnIdx, (test.typeRep c).row⟩
    columnIdx := test.columnIdx + 1 } : InclusionTest Class) = start at opened_eq
  have startRep : ∀ e ∈ loaded, start.typeRep e = test.typeRep e := by
    intro e member
    rw [← start_eq]
    exact Function.update_of_ne (different e member) _ _
  have startSelf : (start.typeRep c).pos = test.columnIdx := by
    rw [← start_eq]
    dsimp only
    rw [Function.update_self]
  have same : SameColumns start opened :=
    opened_eq ▸ allocateRow_sameColumns start info c (List.replicate test.bitvecSize 0)
  have rows : ∀ e ∈ loaded, opened.row e = test.row e := by
    intro e member
    have old : (start.typeRep e).row < start.unused := by
      rw [startRep e member, ← start_eq]
      exact laid.row e member
    rw [opened_eq, allocateRow_row _ (different e member) old, InclusionTest.row,
      startRep e member, ← start_eq]
    rfl
  have self : opened.row c = List.replicate test.bitvecSize 0 := by
    rw [opened_eq, allocateRow_row_self]
  have columnIdx : start.columnIdx = test.columnIdx + 1 := by rw [← start_eq]
  have bitvecSize : start.bitvecSize = test.bitvecSize := by rw [← start_eq]
  have placed : Placed opened info (c :: loaded) := by
    rw [opened_eq]
    apply Placed.allocateRow
    · intro e member
      rw [columnIdx]
      rcases List.mem_cons.mp member with rfl | member
      · rw [startSelf]
        exact Nat.lt_succ_self _
      · rw [startRep e member]
        exact Nat.lt_succ_of_lt (laid.column e member)
    · intro e member f member' equal
      rcases List.mem_cons.mp member with rfl | old
      · rcases List.mem_cons.mp member' with rfl | old'
        · rfl
        · rw [startSelf, startRep f old'] at equal
          exact absurd equal (Nat.ne_of_gt (laid.column f old'))
      · rcases List.mem_cons.mp member' with rfl | old'
        · rw [startSelf, startRep e old] at equal
          exact absurd equal (Nat.ne_of_lt (laid.column e old))
        · rw [startRep e old, startRep f old'] at equal
          exact laid.columns e old f old' equal
    · intro e member apart
      have member := (List.mem_cons.mp member).resolve_left apart
      rw [startRep e member, ← start_eq]
      exact laid.row e member
    · intro e member apart f member' apart' equal
      have member := (List.mem_cons.mp member).resolve_left apart
      have member' := (List.mem_cons.mp member').resolve_left apart'
      rw [startRep e member, startRep f member'] at equal
      exact laid.rows e member f member' equal
    · intro e member apart hasTable
      have member := (List.mem_cons.mp member).resolve_left apart
      rw [startRep e member, ← laid.table e member hasTable, ← start_eq]
  refine ⟨⟨placed, ?_, ?_, ?_⟩, rows, ?_, ?_, ?_⟩
  · rw [same.columnIdx, same.bitvecSize, columnIdx, bitvecSize]
    exact room
  · intro e member
    rw [same.bitvecSize, bitvecSize]
    rcases List.mem_cons.mp member with rfl | member
    · rw [self, List.length_replicate]
    · rw [rows e member]
      exact laid.long e member
  · intro e member i beyond
    rw [same.columnIdx, columnIdx] at beyond
    rcases List.mem_cons.mp member with rfl | member
    · rw [self, BitRow.test_zeros]
    · rw [rows e member]
      exact laid.clear e member i (by omega)
  · intro e member
    rw [same.pos, startRep e member]
  · rw [same.pos, startSelf]
  · rw [same.columnIdx, columnIdx]

theorem Laid.enter (laid : Laid test info loaded) (new : c ∉ loaded)
    (room : test.columnIdx < 32 * test.bitvecSize)
    (super : ∀ s, (info c).superclass = some s → s ∈ loaded) :
    Entered test (test.enter info c) info loaded c := by
  have different : ∀ e ∈ loaded, e ≠ c := fun e member same => new (same ▸ member)
  generalize opened_eq : allocateRow
    { test with
      typeRep := Function.update test.typeRep c ⟨test.columnIdx, (test.typeRep c).row⟩
      columnIdx := test.columnIdx + 1 } info c (List.replicate test.bitvecSize 0) = opened
  obtain ⟨laid', rows, pos, column, columnIdx⟩ := laid.newRow new room opened_eq.symm
  have old : ∀ e ∈ loaded, ∀ d ∈ loaded, opened.bit e d = test.bit e d := by
    intro e member d member'
    rw [bit, bit, rows e member, pos d member']
  have empty : ∀ e ∈ loaded, opened.bit e c = false := by
    intro e member
    rw [bit, rows e member, column]
    exact laid.clear e member _ (Nat.le_refl _)
  have self : opened.row c = List.replicate test.bitvecSize 0 := by
    rw [← opened_eq, allocateRow_row_self]
  -- the row of the superclass
  obtain ⟨filled, filled_eq, laidFilled, sameFilled, row, oldFilled, emptyFilled⟩ :
      ∃ filled, test.enter info c = filled.setBit c c ∧ Laid filled info (c :: loaded) ∧
        SameColumns opened filled ∧
        (∀ d ∈ loaded, filled.bit c d = true ↔
          ∃ s, (info c).superclass = some s ∧ test.bit s d = true) ∧
        (∀ e ∈ loaded, ∀ d ∈ loaded, filled.bit e d = test.bit e d) ∧
        ∀ e ∈ loaded, filled.bit e c = false := by
    cases isSuper : (info c).superclass with
    | none =>
        refine ⟨opened, ?_, laid', .refl _, ?_, old, empty⟩
        · rw [InclusionTest.enter, isSuper]
          dsimp only
          rw [opened_eq]
        · intro d member
          rw [bit, self, BitRow.test_zeros]
          simp
    | some s =>
        have known := super s isSuper
        refine ⟨opened.setRow c (opened.row s), ?_, ?_, setRow_sameColumns _ _ _, ?_, ?_, ?_⟩
        · rw [InclusionTest.enter, isSuper]
          dsimp only
          rw [opened_eq]
        · exact laid'.setRow List.mem_cons_self (laid'.long s (List.mem_cons_of_mem c known))
            (laid'.clear s (List.mem_cons_of_mem c known))
        · intro d member
          rw [bit_setRow_self]
          change opened.bit s d = true ↔ _
          rw [old s known d member]
          simp
        · intro e member d member'
          rw [laid'.bit_setRow List.mem_cons_self (List.mem_cons_of_mem c member)
            (different e member), old e member d member']
        · intro e member
          rw [laid'.bit_setRow List.mem_cons_self (List.mem_cons_of_mem c member)
            (different e member), empty e member]
  have sameSet := setBit_sameColumns filled c c
  have bits {e f : Class} (member : e ∈ c :: loaded) (member' : f ∈ c :: loaded) :=
    laidFilled.bit_setBit (c := c) (d := c) List.mem_cons_self List.mem_cons_self member member'
  have openedSame : opened.normalHead = test.normalHead ∧ opened.arrayHead = test.arrayHead ∧
      opened.encoding = test.encoding := by
    rw [← opened_eq]
    exact ⟨rfl, rfl, rfl⟩
  rw [filled_eq]
  refine ⟨laidFilled.setBit List.mem_cons_self List.mem_cons_self, ?_, ?_, ?_, ?_, ?_, ?_, ?_,
    ?_, ?_⟩
  · rw [sameSet.columnIdx, sameFilled.columnIdx, columnIdx]
  · rw [sameSet.normalHead, sameFilled.normalHead, openedSame.1]
  · rw [sameSet.arrayHead, sameFilled.arrayHead, openedSame.2.1]
  · rw [sameSet.encoding, sameFilled.encoding, openedSame.2.2]
  · intro e member
    rw [sameSet.pos, sameFilled.pos, pos e member]
  · intro e member d member'
    rw [← oldFilled e member d member', Bool.eq_iff_iff,
      bits (List.mem_cons_of_mem c member) (List.mem_cons_of_mem c member'),
      or_iff_left fun both => different e member both.1]
  · intro e member
    rw [← emptyFilled e member, Bool.eq_iff_iff,
      bits (List.mem_cons_of_mem c member) List.mem_cons_self,
      or_iff_left fun both => different e member both.1]
  · intro d member
    rw [bits List.mem_cons_self (List.mem_cons_of_mem c member),
      or_iff_left fun both => different d member both.2]
    exact row d member
  · exact (bits List.mem_cons_self List.mem_cons_self).mpr (.inr ⟨rfl, rfl⟩)

/-! Array classes. -/

/-- How an array class is compared with another one. -/
theorem updateAgainst_cases {array other : ArrayType Class} {tmp : Class}
    (isArray : (types.info tmp).arrayType = some other)
    (elements : (types.info array.element).isPrimitive = false →
      (types.info other.element).isPrimitive = false →
        (test.bit array.element other.element = true ↔
          types.Descends array.element other.element) ∧
        (test.bit other.element array.element = true ↔
          types.Descends other.element array.element))
    (apart : array.element = other.element → array.dimension ≠ other.dimension)
    (behind : array.element = types.objectClass → other.element = types.objectClass →
      other.dimension < array.dimension) :
    test.updateAgainst types c array tmp = test.setBit c tmp ∧
        types.ArrayIncluded array other ∧ ¬ types.ArrayIncluded other array ∨
      test.updateAgainst types c array tmp = test.setBit tmp c ∧
        ¬ types.ArrayIncluded array other ∧ types.ArrayIncluded other array ∨
      test.updateAgainst types c array tmp = test ∧
        ¬ types.ArrayIncluded array other ∧ ¬ types.ArrayIncluded other array := by
  unfold updateAgainst
  rw [isArray]
  dsimp only
  unfold Taxonomy.ArrayIncluded
  by_cases object : array.element = types.objectClass
  · rw [if_pos object]
    by_cases covers : array.dimension ≤ other.dimension
    · have notObject : other.element ≠ types.objectClass := fun same =>
        absurd covers (Nat.not_le_of_lt (behind object same))
      rw [if_pos covers]
      refine .inr (.inl ⟨rfl, ?_, .inl ⟨object, notObject, covers⟩⟩)
      rintro (⟨same, _⟩ | ⟨_, different, _⟩)
      · exact notObject same
      · exact different object
    · rw [if_neg covers]
      refine .inr (.inr ⟨rfl, ?_, ?_⟩)
      · rintro (⟨_, different, _⟩ | ⟨_, different, _⟩)
        · exact different object
        · exact different object
      · rintro (⟨_, _, covered⟩ | ⟨different, _⟩)
        · exact covers covered
        · exact different object
  · rw [if_neg object]
    by_cases object' : other.element = types.objectClass
    · rw [if_pos object']
      have notBack : ¬ (array.element = types.objectClass ∧ other.element ≠ types.objectClass ∧
            array.dimension ≤ other.dimension ∨
          array.element ≠ types.objectClass ∧ other.element ≠ types.objectClass ∧
            other.dimension = array.dimension ∧ (types.info other.element).isPrimitive = false ∧
            (types.info array.element).isPrimitive = false ∧
            types.Descends other.element array.element) := by
        rintro (⟨same, _⟩ | ⟨_, different, _⟩)
        · exact object same
        · exact different object'
      by_cases covers : other.dimension ≤ array.dimension
      · rw [if_pos covers]
        exact .inl ⟨rfl, .inl ⟨object', object, covers⟩, notBack⟩
      · rw [if_neg covers]
        refine .inr (.inr ⟨rfl, ?_, notBack⟩)
        rintro (⟨_, _, covered⟩ | ⟨different, _⟩)
        · exact covers covered
        · exact different object'
    · rw [if_neg object']
      simp only [object, object', false_and, not_false_eq_true, true_and, false_or, ne_eq]
      by_cases same : array.dimension = other.dimension
      · rw [if_pos same]
        cases primitive : (types.info array.element).isPrimitive with
        | true => simp
        | false =>
            cases primitive' : (types.info other.element).isPrimitive with
            | true => simp
            | false =>
                obtain ⟨down, up⟩ := elements primitive primitive'
                rw [if_neg (by decide)]
                simp only [same, true_and]
                by_cases below : test.bit array.element other.element = true
                · rw [if_pos below]
                  refine .inl ⟨rfl, down.mp below, fun back => ?_⟩
                  exact apart ((down.mp below).antisymm back) same
                · rw [if_neg below]
                  by_cases above : test.bit other.element array.element = true
                  · rw [if_pos above]
                    exact .inr (.inl ⟨rfl, fun descends => below (down.mpr descends),
                      up.mp above⟩)
                  · rw [if_neg above]
                    exact .inr (.inr ⟨rfl, fun descends => below (down.mpr descends),
                      fun descends => above (up.mpr descends)⟩)
      · rw [if_neg same]
        exact .inr (.inr ⟨rfl, fun both => same both.1, fun both => same both.1.symm⟩)

theorem Laid.updateAgainst {array : ArrayType Class} {tmp : Class}
    (laid : Laid test types.info (c :: loaded)) (normal : (types.info array.element).arrayType = none)
    (comparable : Comparable types loaded array tmp) (new : c ∉ loaded)
    (elements : ∀ e ∈ loaded, ∀ f ∈ loaded, (types.info e).arrayType = none →
      (test.bit e f = true ↔ types.Descends e f)) :
    Laid (test.updateAgainst types c array tmp) types.info (c :: loaded) ∧
      SameColumns test (test.updateAgainst types c array tmp) ∧
      ∀ e ∈ c :: loaded, ∀ f ∈ c :: loaded,
        (test.updateAgainst types c array tmp).bit e f = true ↔
          test.bit e f = true ∨ Crossing types array c [tmp] e f := by
  have known := List.mem_cons_of_mem c comparable.known
  have different : tmp ≠ c := fun same => new (same ▸ comparable.known)
  obtain ⟨other, isArray⟩ := Option.ne_none_iff_exists'.mp comparable.isArray
  obtain ⟨element', normal', apart, behind⟩ := comparable.others other isArray
  have crossing (e f : Class) : Crossing types array c [tmp] e f ↔
      e = c ∧ f = tmp ∧ types.ArrayIncluded array other ∨
        f = c ∧ e = tmp ∧ types.ArrayIncluded other array := by
    unfold Crossing
    simp only [List.mem_singleton]
    constructor
    · rintro (⟨rfl, rfl, same, isOther, included⟩ | ⟨rfl, rfl, same, isOther, included⟩)
      · rw [isArray, Option.some.injEq] at isOther
        exact .inl ⟨rfl, rfl, isOther ▸ included⟩
      · rw [isArray, Option.some.injEq] at isOther
        exact .inr ⟨rfl, rfl, isOther ▸ included⟩
    · rintro (⟨rfl, rfl, included⟩ | ⟨rfl, rfl, included⟩)
      · exact .inl ⟨rfl, rfl, other, isArray, included⟩
      · exact .inr ⟨rfl, rfl, other, isArray, included⟩
  have bits : (types.info array.element).isPrimitive = false →
      (types.info other.element).isPrimitive = false →
        (test.bit array.element other.element = true ↔
          types.Descends array.element other.element) ∧
        (test.bit other.element array.element = true ↔
          types.Descends other.element array.element) := by
    intro primitive primitive'
    have left := comparable.element primitive
    have right := element' primitive'
    exact ⟨elements _ left _ right normal, elements _ right _ left normal'⟩
  rcases updateAgainst_cases (c := c) isArray bits apart behind with
    ⟨result, included, notBack⟩ | ⟨result, notIncluded, back⟩ | ⟨result, notIncluded, notBack⟩
  · rw [result]
    refine ⟨laid.setBit List.mem_cons_self known, setBit_sameColumns _ _ _, ?_⟩
    intro e member f member'
    rw [laid.bit_setBit List.mem_cons_self known member member', crossing]
    simp [included, notBack]
  · rw [result]
    refine ⟨laid.setBit known List.mem_cons_self, setBit_sameColumns _ _ _, ?_⟩
    intro e member f member'
    rw [laid.bit_setBit known List.mem_cons_self member member', crossing]
    simp [notIncluded, back, and_comm]
  · rw [result]
    refine ⟨laid, .refl _, ?_⟩
    intro e member f member'
    rw [crossing]
    simp [notIncluded, notBack]

theorem Laid.arrays {array : ArrayType Class} {list : List Class}
    (laid : Laid test types.info (c :: loaded)) (normal : (types.info array.element).arrayType = none)
    (isArray : (types.info c).arrayType ≠ none)
    (comparable : ∀ tmp ∈ list, Comparable types loaded array tmp) (new : c ∉ loaded)
    (elements : ∀ e ∈ loaded, ∀ f ∈ loaded, (types.info e).arrayType = none →
      (test.bit e f = true ↔ types.Descends e f)) {after : InclusionTest Class}
    (after_eq : list.foldl (fun test tmp => test.updateAgainst types c array tmp) test = after) :
    Laid after types.info (c :: loaded) ∧ SameColumns test after ∧
      ∀ e ∈ c :: loaded, ∀ f ∈ c :: loaded,
        after.bit e f = true ↔ test.bit e f = true ∨ Crossing types array c list e f := by
  induction list generalizing test with
  | nil =>
      obtain rfl : test = after := after_eq
      exact ⟨laid, .refl _, by simp [Crossing]⟩
  | cons tmp rest ih =>
      have first := comparable tmp List.mem_cons_self
      obtain ⟨laid', same, bits⟩ := laid.updateAgainst normal first new elements
      have elements' : ∀ e ∈ loaded, ∀ f ∈ loaded, (types.info e).arrayType = none →
          ((test.updateAgainst types c array tmp).bit e f = true ↔ types.Descends e f) := by
        intro e member f member' flat
        rw [bits e (List.mem_cons_of_mem c member) f (List.mem_cons_of_mem c member'),
          elements e member f member' flat, or_iff_left]
        -- only rows of arrays are written
        rintro (⟨rfl, _⟩ | ⟨_, inside, _⟩)
        · exact isArray flat
        · rw [List.mem_singleton] at inside
          exact first.isArray (inside ▸ flat)
      obtain ⟨laid'', same', bits'⟩ := ih laid'
        (fun other member => comparable other (List.mem_cons_of_mem tmp member)) elements' after_eq
      refine ⟨laid'', same.trans same', fun e member f member' => ?_⟩
      rw [bits' e member f member', bits e member f member', or_assoc, ← crossing_cons]

end InclusionTest

end LaTTe.Classes
