import LaTTe.Classes.Inclusion
import Mathlib.Logic.Relation

namespace LaTTe.Classes

open LaTTe.Data

/-! What the two tests are about. -/

namespace Taxonomy

variable {Class : Type} {types : Taxonomy Class}

def Parent (types : Taxonomy Class) (c p : Class) : Prop :=
  (types.info c).superclass = some p ∨ p ∈ (types.info c).interfaces

def Descends (types : Taxonomy Class) : Class → Class → Prop :=
  Relation.ReflTransGen types.Parent

theorem Parent.depth {c p : Class} (parent : types.Parent c p) :
    types.depth p < types.depth c := by
  rcases parent with super | interface
  · exact types.superclass_depth c p super
  · exact types.interface_depth c p interface

theorem Parent.normal {c p : Class} (parent : types.Parent c p) :
    (types.info p).arrayType = none := by
  rcases parent with super | interface
  · exact types.superclass_normal c p super
  · exact types.interface_normal c p interface

theorem Descends.depth {c d : Class} (descends : types.Descends c d) :
    types.depth d ≤ types.depth c := by
  induction descends with
  | refl => exact Nat.le_refl _
  | tail _ parent ih => exact Nat.le_trans (Nat.le_of_lt parent.depth) ih

theorem descends_iff {c d : Class} :
    types.Descends c d ↔ c = d ∨ ∃ p, types.Parent c p ∧ types.Descends p d :=
  Relation.ReflTransGen.cases_head_iff

theorem Descends.antisymm {c d : Class} (down : types.Descends c d) (up : types.Descends d c) :
    c = d := by
  rcases descends_iff.mp down with same | ⟨p, parent, rest⟩
  · exact same
  · have := parent.depth
    have := rest.depth
    have := up.depth
    omega

theorem Descends.array {c d : Class} (descends : types.Descends c d)
    (array : (types.info d).arrayType ≠ none) : c = d := by
  rcases Relation.ReflTransGen.cases_tail descends with same | ⟨p, _, parent⟩
  · exact same.symm
  · exact absurd parent.normal array

theorem no_parent {c : Class} (super : (types.info c).superclass = none)
    (interfaces : (types.info c).interfaces = []) (p : Class) : ¬ types.Parent c p := by
  rintro (some | member)
  · rw [super] at some
    cases some
  · rw [interfaces] at member
    cases member

theorem descends_of_top {c d : Class} (super : (types.info c).superclass = none)
    (interfaces : (types.info c).interfaces = []) : types.Descends c d ↔ c = d := by
  rw [descends_iff]
  constructor
  · rintro (same | ⟨p, parent, _⟩)
    · exact same
    · exact absurd parent (no_parent super interfaces p)
  · exact .inl

theorem descends_object {d : Class} :
    types.Descends types.objectClass d ↔ types.objectClass = d :=
  descends_of_top types.object_top.1 types.object_top.2.1

theorem descends_array {c d : Class} {array : ArrayType Class}
    (isArray : (types.info c).arrayType = some array) :
    types.Descends c d ↔ c = d ∨ types.objectClass = d := by
  obtain ⟨super, interfaces, _⟩ := types.array_top c array isArray
  have parent_iff (p : Class) : types.Parent c p ↔ p = types.objectClass := by
    rw [Parent, super, interfaces]
    simp [eq_comm]
  rw [descends_iff]
  simp only [parent_iff, exists_eq_left, descends_object]

/-! Array types. -/

theorem elementOf_array {c : Class} {array : ArrayType Class}
    (isArray : (types.info c).arrayType = some array) :
    elementOf types.info c = array.element ∧ dimensionOf types.info c = array.dimension := by
  simp [elementOf, dimensionOf, isArray]

theorem element_normal (c : Class) : (types.info (elementOf types.info c)).arrayType = none := by
  induction depth_eq : types.depth c using Nat.strongRecOn generalizing c with
  | ind depth ih =>
      cases isArray : (types.info c).arrayType with
      | none =>
          rw [elementOf, isArray]
          exact isArray
      | some array =>
          rw [(elementOf_array isArray).1, (types.array_shape c array isArray).1]
          exact ih _ (depth_eq ▸ types.component_depth c array isArray) _ rfl

theorem dimension_pos {c : Class} {array : ArrayType Class}
    (isArray : (types.info c).arrayType = some array) : 0 < array.dimension := by
  rw [(types.array_shape c array isArray).2]
  exact Nat.succ_pos _

theorem component_array {c : Class} {array : ArrayType Class}
    (isArray : (types.info c).arrayType = some array) (more : 1 < array.dimension) :
    ∃ inner, (types.info array.component).arrayType = some inner ∧
      inner.element = array.element ∧ inner.dimension + 1 = array.dimension := by
  obtain ⟨element, dimension⟩ := types.array_shape c array isArray
  cases isArray' : (types.info array.component).arrayType with
  | none =>
      rw [dimensionOf, isArray'] at dimension
      exact absurd dimension (Nat.ne_of_gt more)
  | some inner =>
      obtain ⟨element', dimension'⟩ := elementOf_array isArray'
      exact ⟨inner, rfl, element'.symm.trans element.symm, dimension' ▸ dimension.symm⟩

theorem component_element {c : Class} {array : ArrayType Class}
    (isArray : (types.info c).arrayType = some array) (one : array.dimension = 1) :
    array.component = array.element := by
  obtain ⟨element, dimension⟩ := types.array_shape c array isArray
  cases isArray' : (types.info array.component).arrayType with
  | none => rw [element, elementOf, isArray']
  | some inner =>
      have := dimension_pos isArray'
      rw [(elementOf_array isArray').2] at dimension
      omega

theorem array_ext {c d : Class} {array other : ArrayType Class}
    (isArray : (types.info c).arrayType = some array)
    (isArray' : (types.info d).arrayType = some other) (element : array.element = other.element)
    (dimension : array.dimension = other.dimension) : c = d := by
  apply types.array_unique c array isArray d other isArray'
  induction size : array.dimension generalizing c d array other with
  | zero => exact absurd size (Nat.ne_of_gt (dimension_pos isArray))
  | succ n ih =>
      cases n with
      | zero =>
          rw [component_element isArray size, component_element isArray' (dimension ▸ size), element]
      | succ n =>
          obtain ⟨inner, innerArray, innerElement, innerDimension⟩ :=
            component_array isArray (by omega)
          obtain ⟨inner', innerArray', innerElement', innerDimension'⟩ :=
            component_array isArray' (by omega)
          apply types.array_unique _ inner innerArray _ inner' innerArray'
          apply ih innerArray innerArray'
          · rw [innerElement, innerElement', element]
          · omega
          · omega

def ArrayIncluded (types : Taxonomy Class) (array other : ArrayType Class) : Prop :=
  other.element = types.objectClass ∧ array.element ≠ types.objectClass ∧
      other.dimension ≤ array.dimension ∨
    other.element ≠ types.objectClass ∧ array.element ≠ types.objectClass ∧
      array.dimension = other.dimension ∧ (types.info array.element).isPrimitive = false ∧
      (types.info other.element).isPrimitive = false ∧
      types.Descends array.element other.element

def Included (types : Taxonomy Class) (c d : Class) : Prop :=
  types.Descends c d ∨
    ∃ array other, (types.info c).arrayType = some array ∧
      (types.info d).arrayType = some other ∧ types.ArrayIncluded array other

end Taxonomy

section

variable {Class : Type} [DecidableEq Class] {types : Taxonomy Class}

theorem instanceofClass_iff (c oc : Class) :
    instanceofClass types c oc = true ↔ types.Descends oc c := by
  induction depth_eq : types.depth oc using Nat.strongRecOn generalizing oc with
  | ind depth ih =>
      rw [instanceofClass, Taxonomy.descends_iff]
      simp only [Bool.or_eq_true, decide_eq_true_eq, or_assoc, Option.any_eq_true,
        List.any_eq_true]
      apply or_congr_right
      constructor
      · rintro (⟨s, _, leads⟩ | ⟨i, _, leads⟩)
        · have parent : types.Parent oc s.1 := .inl s.2
          exact ⟨s.1, parent, (ih _ (depth_eq ▸ parent.depth) _ rfl).mp leads⟩
        · have parent : types.Parent oc i.1 := .inr i.2
          exact ⟨i.1, parent, (ih _ (depth_eq ▸ parent.depth) _ rfl).mp leads⟩
      · rintro ⟨p, parent, descends⟩
        have leads := (ih _ (depth_eq ▸ parent.depth) p rfl).mpr descends
        rcases parent with super | interface
        · exact .inl ⟨⟨p, super⟩, Option.mem_attach _ _, leads⟩
        · exact .inr ⟨⟨p, interface⟩, List.mem_attach _ _, leads⟩

/-- What is left of two types when their common dimensions are taken off. -/
theorem instanceofArray_iff (c oc : Class) :
    instanceofArray types c oc = true ↔
      dimensionOf types.info c < dimensionOf types.info oc ∧
          elementOf types.info c = types.objectClass ∨
        dimensionOf types.info c = dimensionOf types.info oc ∧
          (elementOf types.info oc = elementOf types.info c ∨
            (types.info (elementOf types.info c)).isPrimitive = false ∧
              types.Descends (elementOf types.info oc) (elementOf types.info c)) := by
  induction depth_eq : types.depth c using Nat.strongRecOn generalizing c oc with
  | ind depth ih =>
      rw [instanceofArray]
      cases isArray : (types.info c).arrayType with
      | some array =>
          obtain ⟨element, dimension⟩ := Taxonomy.elementOf_array isArray
          obtain ⟨shapeElement, shapeDimension⟩ := types.array_shape c array isArray
          cases isArray' : (types.info oc).arrayType with
          | some other =>
              obtain ⟨element', dimension'⟩ := Taxonomy.elementOf_array isArray'
              obtain ⟨otherElement, otherDimension⟩ := types.array_shape oc other isArray'
              dsimp only
              rw [ih _ (depth_eq ▸ types.component_depth c array isArray) _ _ rfl, element,
                dimension, element', dimension', shapeElement, shapeDimension, otherElement,
                otherDimension]
              simp only [Nat.add_lt_add_iff_right, Nat.add_right_cancel_iff]
          | none =>
              have flat : dimensionOf types.info oc = 0 := by rw [dimensionOf, isArray']
              have positive := Taxonomy.dimension_pos isArray
              rw [flat, dimension]
              simp
              omega
      | none =>
          have flat : dimensionOf types.info c = 0 := by rw [dimensionOf, isArray]
          have element : elementOf types.info c = c := by rw [elementOf, isArray]
          cases isArray' : (types.info oc).arrayType with
          | some other =>
              have positive := Taxonomy.dimension_pos isArray'
              have more : ¬ 0 = other.dimension := Nat.ne_of_lt positive
              rw [flat, element, (Taxonomy.elementOf_array isArray').2]
              have different : c ≠ oc := by
                rintro rfl
                rw [isArray] at isArray'
                cases isArray'
              cases primitive : (types.info c).isPrimitive with
              | true =>
                  have notObject : c ≠ types.objectClass := by
                    rintro rfl
                    rw [types.object_top.2.2.1] at primitive
                    cases primitive
                  simp [different, notObject, more]
              | false => simp [positive, more]
          | none =>
              have flat' : dimensionOf types.info oc = 0 := by rw [dimensionOf, isArray']
              have element' : elementOf types.info oc = oc := by rw [elementOf, isArray']
              rw [flat, flat', element, element']
              cases primitive : (types.info c).isPrimitive with
              | true => simp [eq_comm]
              | false =>
                  cases primitive' : (types.info oc).isPrimitive with
                  | true =>
                      obtain ⟨super, interfaces⟩ := types.primitive_top oc primitive'
                      rw [Taxonomy.descends_of_top super interfaces]
                      simp
                      rintro rfl
                      rw [primitive] at primitive'
                      cases primitive'
                  | false =>
                      have leads : instanceofClass types c oc = true ↔ types.Descends oc c :=
                        instanceofClass_iff c oc
                      simp [leads]
                      rintro rfl
                      exact .refl

end

end LaTTe.Classes
