import LaTTe.Classes.Fields
import Mathlib.Algebra.Order.BigOperators.Group.List

namespace LaTTe.Classes.Fields

open LaTTe.Data

/-! The objects of a class with the fields of all its superclasses. -/

def Apart (first second : Field) : Prop :=
  first.offset + first.size ≤ second.offset ∨ second.offset + second.size ≤ first.offset

def ownReferences (file : FieldsFile) : Nat :=
  (instances file.declared).countP fun d => isReference d.type

/-- The objects of a class have all fields that it and its superclasses declare.  Each of them
lies behind the header and in the object, at a multiple of its size, and apart from the others;
it is where the superclass has it; and `refField` counts the references. -/
structure LaidOut (file : FieldsFile) (supers : List FieldsFile) (c : ClassFields)
    (inherited : List ClassFields) : Prop where
  prepared : prepareHierarchy (file :: supers) = some (c :: inherited)
  superclasses : prepareHierarchy supers = some inherited
  declared : List.Forall₂ (fun file c =>
    (instanceFields c).map Field.label = (instances file.declared).map DeclaredField.label)
      (file :: supers) (c :: inherited)
  inside : ∀ field ∈ (c :: inherited).flatMap instanceFields,
    sizeofObject ≤ field.offset ∧ (field.offset + field.size : Nat) ≤ c.fsize
  aligned : ∀ field ∈ (c :: inherited).flatMap instanceFields, field.size ∣ field.offset
  apart : ((c :: inherited).flatMap instanceFields).Pairwise Apart
  counted : c.refField = (((file :: supers).map ownReferences).sum : Nat)

/-- The fields of a class can be counted in a `short`, and the memory behind the `Utf8Const`
of none of its references looks like a primitive class. -/
structure FieldsFile.Good (file : FieldsFile) : Prop where
  counted : Counted file.declared
  looksRight : ∀ d ∈ instances file.declared, isReference d.type →
    file.behind d.type.encode ≠ -1

structure Chain (files : List FieldsFile) (records : List ClassFields) : Prop where
  prepared : prepareHierarchy files = some records
  declared : List.Forall₂ (fun file c =>
    (instanceFields c).map Field.label = (instances file.declared).map DeclaredField.label)
      files records
  size : ∃ size : Nat, objectSize records = size ∧ sizeofObject ≤ size ∧
    ∀ field ∈ records.flatMap instanceFields, field.offset + field.size ≤ size
  low : ∀ field ∈ records.flatMap instanceFields, sizeofObject ≤ field.offset
  aligned : ∀ field ∈ records.flatMap instanceFields, field.size ∣ field.offset
  apart : (records.flatMap instanceFields).Pairwise Apart
  counted : references records =
    ((files.map fun file => countedRefs file.behind (instances file.declared)).sum : Nat)

theorem Chain.nil : Chain [] [] where
  prepared := rfl
  declared := .nil
  size := by
    refine ⟨sizeofObject, rfl, le_rfl, ?_⟩
    intro field mem
    cases mem
  low := by
    intro field mem
    cases mem
  aligned := by
    intro field mem
    cases mem
  apart := .nil
  counted := rfl

/-- A class adds its fields behind those that it inherits. -/
theorem Chain.cons {files : List FieldsFile} {records : List ClassFields}
    (chain : Chain files records) (file : FieldsFile) (counted : Counted file.declared) :
    ∃ c, Chain (file :: files) (c :: records) := by
  obtain ⟨size, same, header, ends⟩ := chain.size
  have positive : 0 < size := lt_of_lt_of_le (by decide) header
  obtain ⟨offset, behind, prepares⟩ := prepareFields_counted file counted same positive
  refine ⟨resolved file.declared offset
    (references records + countedRefs file.behind (instances file.declared)), ?_⟩
  constructor
  case prepared =>
    rw [prepareHierarchy, chain.prepared]
    dsimp only [Option.bind_eq_bind, Option.bind_some]
    rw [prepares]
    rfl
  case declared =>
    refine .cons ?_ chain.declared
    rw [instanceFields_resolved, label_laidFields]
  case size =>
    refine ⟨laidEnd offset (instances file.declared), rfl, ?_, ?_⟩
    · exact header.trans (behind.trans le_laidEnd)
    · intro field mem
      rw [List.flatMap_cons, List.mem_append, instanceFields_resolved] at mem
      rcases mem with own | old
      · exact (laidFields_bounds field own).2.2
      · exact (ends field old).trans (behind.trans le_laidEnd)
  case low =>
    intro field mem
    rw [List.flatMap_cons, List.mem_append, instanceFields_resolved] at mem
    rcases mem with own | old
    · exact header.trans (behind.trans (laidFields_bounds field own).1)
    · exact chain.low field old
  case aligned =>
    intro field mem
    rw [List.flatMap_cons, List.mem_append, instanceFields_resolved] at mem
    rcases mem with own | old
    · exact (laidFields_bounds field own).2.1
    · exact chain.aligned field old
  case apart =>
    rw [List.flatMap_cons, instanceFields_resolved, List.pairwise_append]
    refine ⟨laidFields_apart.imp .inl, chain.apart, ?_⟩
    intro own mem old inherited
    have start := (laidFields_bounds own mem).1
    exact .inr ((ends old inherited).trans (behind.trans start))
  case counted =>
    rw [List.map_cons, List.sum_cons, Nat.cast_add, ← chain.counted]
    exact Int.add_comm _ _

theorem chain_of_counted {files : List FieldsFile}
    (counted : ∀ file ∈ files, Counted file.declared) : ∃ records, Chain files records := by
  induction files with
  | nil => exact ⟨[], .nil⟩
  | cons file files ih =>
      obtain ⟨own, others⟩ := List.forall_mem_cons.mp counted
      obtain ⟨records, chain⟩ := ih others
      obtain ⟨c, longer⟩ := chain.cons file own
      exact ⟨c :: records, longer⟩

/-! Fields that cannot be counted. -/

theorem finishFields_counts {c after : ClassFields} (done : c.finishFields = some after) :
    after.nfields = c.nfields ∧ after.nsfields = c.nsfields := by
  rw [ClassFields.finishFields] at done
  split at done
  · cases done
    exact ⟨rfl, rfl⟩
  · split at done
    · obtain ⟨fields, _, rfl⟩ := Option.map_eq_some_iff.mp done
      exact ⟨rfl, rfl⟩
    · cases done

theorem inheritSize_counts (superclass : Option ClassFields) (c : ClassFields) :
    (inheritSize superclass c).nfields = c.nfields ∧
      (inheritSize superclass c).nsfields = c.nsfields ∧
      (inheritSize superclass c).fields = c.fields := by
  cases superclass with
  | none => exact ⟨rfl, rfl, rfl⟩
  | some superclass => exact ⟨rfl, rfl, rfl⟩

theorem ifields_of_resolve {behind : List Char → BitVec 32} {superclass : Option ClassFields}
    {c after : ClassFields} (done : resolveObjectFields behind superclass c = some after) :
    ∃ fields, c.ifields = some fields := by
  rw [resolveObjectFields] at done
  obtain ⟨start, _, later⟩ := Option.bind_eq_some_iff.mp done
  obtain ⟨fields, own, _⟩ := Option.bind_eq_some_iff.mp later
  exact ⟨fields, own⟩

theorem fields_of_resolve {behind : List Char → BitVec 32} {superclass : Option ClassFields}
    {c after : ClassFields} (none : c.ifields = some [])
    (done : resolveObjectFields behind superclass c = some after) : after.fields = c.fields := by
  rw [resolveObjectFields] at done
  obtain ⟨start, starts, later⟩ := Option.bind_eq_some_iff.mp done
  rw [none] at later
  cases later
  dsimp only [ClassFields.setIfields]
  rw [List.map_nil, List.append_nil, List.length_nil, Nat.add_zero, List.take_append_drop]

theorem instance_of_added {declared : List DeclaredField} {c : ClassFields}
    (fields : c.fields = (added (toShort declared.length) declared 0).fields)
    (some : instances declared ≠ []) : ∃ field ∈ instanceFields c, field.offset = 0 := by
  obtain ⟨d, mem⟩ := List.exists_mem_of_ne_nil _ some
  have own : d.isStatic = false := by simpa [instances] using (List.mem_filter.mp mem).2
  refine ⟨d.entry, ?_, rfl⟩
  rw [instanceFields, List.mem_filter, List.mem_filterMap]
  constructor
  · refine ⟨d.entry, ?_, rfl⟩
    rw [fields]
    dsimp only [added]
    refine List.mem_append_right _ ?_
    exact List.mem_map_of_mem (List.mem_reverse.mpr mem)
  · have flag : d.entry.isStatic = false := own
    rw [flag]
    rfl

theorem counted_of_prepared {file : FieldsFile} {superclass : Option ClassFields}
    {c : ClassFields} (prepares : prepareFields file superclass = some c)
    (low : ∀ field ∈ instanceFields c, sizeofObject ≤ field.offset) :
    Counted file.declared := by
  by_contra many
  have few := file.few
  have all := length_statics_add file.declared
  obtain ⟨added, reads, later⟩ := Option.bind_eq_some_iff.mp prepares
  obtain ⟨finished, finishes, resolves⟩ := Option.bind_eq_some_iff.mp later
  have zero : toShort (0 : Nat) = 0 := by decide
  have start : (ClassFields.start file.declared.length).nsfields = toShort (0 : Nat) := zero.symm
  obtain ⟨total, statically, fits⟩ := addFields_counts start (Nat.zero_le _) reads
  rw [Nat.zero_add] at statically fits
  have many : 2 ^ 15 ≤ file.declared.length ∧ instances file.declared ≠ [] := by
    refine ⟨Nat.le_of_not_lt fun short => many (.inl short), fun none => ?_⟩
    rw [none, List.length_nil] at all
    rcases Nat.lt_or_ge file.declared.length (2 ^ 15) with short | long
    · exact many (.inl short)
    · exact many (.inr ⟨by omega, none⟩)
  have positive := List.length_pos_iff.mpr many.2
  have wrapped : toShort file.declared.length = file.declared.length - 2 ^ 16 :=
    toShort_of_large (by omega) (by omega)
  obtain ⟨sameTotal, sameStatics⟩ := finishFields_counts finishes
  obtain ⟨keptTotal, keptStatics, keptFields⟩ := inheritSize_counts superclass finished
  have allFields : (inheritSize superclass finished).nfields = file.declared.length - 2 ^ 16 := by
    rw [keptTotal, sameTotal, total]
    dsimp only [ClassFields.start]
    exact wrapped
  rcases Nat.lt_or_ge (statics file.declared).length (2 ^ 15) with below | full
  · -- the number of instance fields comes out negative
    have staticFields : added.nsfields = (statics file.declared).length := by
      rw [statically]
      exact toShort_of_fits (by omega) (by omega)
    have reached := Option.some.inj (reads.symm.trans (start_addFields (.inl below)))
    have none : (inheritSize superclass finished).ifields = some [] := by
      refine if_pos ?_
      rw [ClassFields.nifields, allFields, keptStatics, sameStatics, staticFields]
      omega
    have same : finished.fields = added.fields := by
      have negative : added.nifields ≤ 1 := by
        rw [ClassFields.nifields, ← sameTotal, ← keptTotal, allFields, staticFields]
        omega
      rw [ClassFields.finishFields, if_pos negative] at finishes
      cases finishes
      rfl
    have fields := (fields_of_resolve none resolves).trans (keptFields.trans same)
    rw [reached] at fields
    obtain ⟨field, mem, zero⟩ := instance_of_added fields many.2
    have behind := low field mem
    rw [zero] at behind
    exact absurd behind (by decide)
  · -- the array of the instance fields starts before the array
    have staticFields : (inheritSize superclass finished).nsfields = -2 ^ 15 := by
      rw [keptStatics, sameStatics, statically, toShort_of_large (by omega) (by omega)]
      omega
    obtain ⟨fields, own⟩ := ifields_of_resolve resolves
    rw [ClassFields.ifields, ClassFields.nifields, allFields, staticFields, if_neg (by omega),
      if_neg (by omega)] at own
    cases own

theorem counted_of_hierarchy {files : List FieldsFile} {records : List ClassFields}
    (prepares : prepareHierarchy files = some records)
    (low : ∀ field ∈ records.flatMap instanceFields, sizeofObject ≤ field.offset) :
    ∀ file ∈ files, Counted file.declared := by
  induction files generalizing records with
  | nil =>
      intro file mem
      cases mem
  | cons file files ih =>
      obtain ⟨supers, prepared, later⟩ := Option.bind_eq_some_iff.mp prepares
      obtain ⟨c, own, same⟩ := Option.bind_eq_some_iff.mp later
      cases same
      have split : (c :: supers).flatMap instanceFields =
          instanceFields c ++ supers.flatMap instanceFields := List.flatMap_cons
      rw [split, List.forall_mem_append] at low
      rw [List.forall_mem_cons]
      exact ⟨counted_of_prepared own low.1, ih prepared low.2⟩

/-! References that are not counted. -/

theorem countP_and_eq_iff {α : Type} (p q : α → Bool) (l : List α) :
    l.countP (fun a => p a && q a) = l.countP p ↔ ∀ a ∈ l, p a → q a := by
  induction l with
  | nil => simp
  | cons a l ih =>
      have fewer : l.countP (fun a => p a && q a) ≤ l.countP p :=
        List.countP_mono_left fun a _ both => (Bool.and_eq_true_iff.mp both).1
      rw [List.countP_cons, List.countP_cons, List.forall_mem_cons, ← ih]
      cases first : p a with
      | false => simp
      | true =>
          cases second : q a with
          | true => simp
          | false =>
              simp
              omega

theorem countedRefs_le (file : FieldsFile) :
    countedRefs file.behind (instances file.declared) ≤ ownReferences file :=
  List.countP_mono_left fun _ _ both => (Bool.and_eq_true_iff.mp both).1

theorem countedRefs_eq_iff (file : FieldsFile) :
    countedRefs file.behind (instances file.declared) = ownReferences file ↔
      ∀ d ∈ instances file.declared, isReference d.type → file.behind d.type.encode ≠ -1 := by
  rw [countedRefs, ownReferences, countP_and_eq_iff]
  simp only [decide_eq_true_eq]

theorem sum_eq_iff {α : Type} {f g : α → Nat} (le : ∀ a, f a ≤ g a) (l : List α) :
    (l.map f).sum = (l.map g).sum ↔ ∀ a ∈ l, f a = g a := by
  induction l with
  | nil => simp
  | cons a l ih =>
      have rest : (l.map f).sum ≤ (l.map g).sum := List.sum_le_sum fun a _ => le a
      have first := le a
      rw [List.map_cons, List.map_cons, List.sum_cons, List.sum_cons, List.forall_mem_cons, ← ih]
      omega

theorem LaidOut.good {file : FieldsFile} {supers : List FieldsFile} {c : ClassFields}
    {inherited : List ClassFields} (laid : LaidOut file supers c inherited) :
    ∀ f ∈ file :: supers, f.Good := by
  have counted := counted_of_hierarchy laid.prepared fun field mem => (laid.inside field mem).1
  obtain ⟨records, chain⟩ := chain_of_counted counted
  obtain rfl := Option.some.inj (chain.prepared.symm.trans laid.prepared)
  have sums := Int.ofNat_inj.mp (chain.counted.symm.trans laid.counted)
  intro f mem
  exact ⟨counted f mem, (countedRefs_eq_iff f).mp ((sum_eq_iff countedRefs_le _).mp sums f mem)⟩

theorem laidOut_of_good {file : FieldsFile} {supers : List FieldsFile}
    (good : ∀ f ∈ file :: supers, f.Good) :
    ∃ c inherited, LaidOut file supers c inherited := by
  obtain ⟨own, others⟩ := List.forall_mem_cons.mp good
  obtain ⟨inherited, first⟩ := chain_of_counted fun f mem => (others f mem).counted
  obtain ⟨c, chain⟩ := first.cons file own.counted
  obtain ⟨size, same, _, ends⟩ := chain.size
  have sums := (sum_eq_iff countedRefs_le (file :: supers)).mpr fun f mem =>
    (countedRefs_eq_iff f).mpr (good f mem).looksRight
  refine ⟨c, inherited, chain.prepared, first.prepared, chain.declared, ?_, chain.aligned,
    chain.apart, ?_⟩
  · intro field mem
    have high : (field.offset + field.size : Nat) ≤ (size : Int) := Int.ofNat_le.mpr (ends field mem)
    exact ⟨chain.low field mem, high.trans same.ge⟩
  · rw [← sums]
    exact chain.counted

/-- The objects of a class are laid out rightly exactly if the fields of the class and of each
of its superclasses can be counted and none of their references looks like a primitive field. -/
theorem fields_laid_out_iff (file : FieldsFile) (supers : List FieldsFile) :
    (∃ c inherited, LaidOut file supers c inherited) ↔ ∀ f ∈ file :: supers, f.Good := by
  constructor
  · intro ⟨c, inherited, laid⟩
    exact laid.good
  · exact laidOut_of_good

private def intField : DeclaredField where
  isStatic := false
  name := ['f']
  type := .prim .int

private def intFields : FieldsFile where
  declared := List.replicate (2 ^ 15) intField
  few := by
    rw [List.length_replicate]
    decide
  behind := fun _ => 0

/-- 32768 fields of type `int` in one class are one too many. -/
theorem many_fields_not_laid_out :
    ¬ ∀ file supers, ∃ c inherited, LaidOut file supers c inherited := by
  intro claim
  obtain ⟨c, inherited, laid⟩ := claim intFields []
  have declared : intFields.declared = List.replicate (2 ^ 15) intField := rfl
  rcases (laid.good intFields List.mem_cons_self).counted with short | ⟨_, none⟩
  · rw [declared, List.length_replicate] at short
    exact absurd short (Nat.lt_irrefl _)
  · have mem : intField ∈ instances intFields.declared := by
      rw [declared, instances, List.mem_filter]
      exact ⟨List.mem_replicate.mpr ⟨by decide, rfl⟩, rfl⟩
    rw [none] at mem
    cases mem

end LaTTe.Classes.Fields
