import LaTTe.Classes.Descriptor
import LaTTe.Data.Layout
import LaTTe.Data.Reversal

namespace LaTTe.Classes.Fields

open LaTTe.Data

/-! The fields of a class: one array with the static fields first, and the offsets of the
others in the objects of the class. -/

def sizeofObject : Nat := 8

/-- A `field_info` whose name and signature are looked up in the constant pool; there is none
where the constant is no `CONSTANT_Utf8`. -/
structure FieldInfo where
  isStatic : Bool
  name : Option (List Char)
  signature : Option (List Char)

/-- `FIELD_TYPE`: a `Utf8Const` as long as the field is not resolved. -/
inductive TypeRef where
  | signature (sig : List Char)
  | loaded (c : SigClass)
  deriving DecidableEq, Repr

structure Field where
  name : List Char
  type : TypeRef
  isStatic : Bool
  resolved : Bool
  size : Nat
  offset : Nat
  deriving DecidableEq, Repr

/-- The entries of `fields` that nothing has been written to are empty. -/
structure ClassFields where
  fields : List (Option Field)
  nfields : Int
  nsfields : Int
  fsize : Int
  refField : Int

def ClassFields.start (count : Nat) : ClassFields where
  fields := List.replicate count none
  nfields := toShort count
  nsfields := 0
  fsize := count
  refField := 0

namespace ClassFields

def write (c : ClassFields) (index : Int) (field : Field) : Option ClassFields :=
  if 0 ≤ index ∧ index < c.fields.length then
    some { c with fields := c.fields.set index.toNat (some field) }
  else
    none

def addField (c : ClassFields) (f : FieldInfo) : Option ClassFields :=
  match f.name with
  | none => some c
  | some name =>
      let index := if f.isStatic then c.nsfields else c.fsize - 1 + c.nsfields
      let c := { c with
        fsize := c.fsize - 1
        nsfields := if f.isStatic then toShort (c.nsfields + 1) else c.nsfields }
      match f.signature with
      | none => some c
      | some sig => c.write index {
          name := name
          type := .signature sig
          isStatic := f.isStatic
          resolved := false
          size := 0
          offset := 0 }

def nifields (c : ClassFields) : Int := c.nfields - c.nsfields

def finishFields (c : ClassFields) : Option ClassFields :=
  if c.nifields ≤ 1 then
    some c
  else if 0 ≤ c.nsfields then
    (reverseEnds c.fields c.nsfields.toNat c.nifields.toNat).map
      fun fields => { c with fields := fields }
  else
    none

def ifields (c : ClassFields) : Option (List Field) :=
  if c.nifields ≤ 0 then
    some []
  else if 0 ≤ c.nsfields ∧ c.nsfields + c.nifields ≤ c.fields.length then
    ((c.fields.drop c.nsfields.toNat).take c.nifields.toNat).mapM id
  else
    none

def setIfields (c : ClassFields) (fields : List Field) : ClassFields :=
  { c with fields := c.fields.take c.nsfields.toNat ++ fields.map some ++
      c.fields.drop (c.nsfields.toNat + fields.length) }

end ClassFields

def sizeField (field : Field) : Option Field :=
  match field.resolved, field.type with
  | false, .signature sig =>
      if sig.head? = some 'L' ∨ sig.head? = some '[' then
        some { field with size := LaTTe.Gc.ptrTypeSize }
      else
        (classFromSig sig).map fun (c, _) =>
          { field with type := .loaded c, size := c.size, resolved := true }
  | _, _ => some field

/-- `Class_IsPrimitiveType` of a class whose `dtable` has been set. -/
def SigClass.isPrimitive : SigClass → Bool
  | .void | .prim _ => true
  | .array _ | .named _ => false

/-- `FIELD_ISREF`, where `behind` is the word that lies behind a `Utf8Const` as `dtable` lies
behind the start of a class. -/
def isRef (behind : List Char → BitVec 32) (field : Field) : Bool :=
  match field.type with
  | .loaded c => !SigClass.isPrimitive c
  | .signature sig => behind sig ≠ -1

def placeFields (behind : List Char → BitVec 32) :
    List Field → Nat → Int → Option (List Field × Nat × Int)
  | [], offset, refField => some ([], offset, refField)
  | field :: rest, offset, refField =>
      let fsize := if field.resolved then field.size else LaTTe.Gc.ptrTypeSize
      if fsize = 0 then
        none
      else
        let offset := roundUp offset fsize
        let refField := if isRef behind field then refField + 1 else refField
        (placeFields behind rest (offset + fsize) refField).map fun (fields, last) =>
          ({ field with offset := offset } :: fields, last)

def largestAlign (fields : List Field) : Nat :=
  fields.foldl (fun align field => if field.size > align then field.size else align) 1

def startOfFields (superclass : Option ClassFields) (c : ClassFields) : Option (Nat × Int) :=
  if c.fsize = 0 then
    some (sizeofObject, c.refField)
  else
    superclass.map fun superclass => (c.fsize.toNat, superclass.refField)

def resolveObjectFields (behind : List Char → BitVec 32) (superclass : Option ClassFields)
    (c : ClassFields) : Option ClassFields := do
  let (offset, refField) ← startOfFields superclass c
  let fields ← (← c.ifields).mapM sizeField
  let (fields, offset, refField) ← placeFields behind fields
    (roundUp offset (largestAlign fields)) refField
  return { c.setIfields fields with fsize := offset, refField := refField }

structure DeclaredField where
  isStatic : Bool
  name : List Char
  type : FieldType

def DeclaredField.info (d : DeclaredField) : FieldInfo where
  isStatic := d.isStatic
  name := some d.name
  signature := some d.type.encode

/-- A class file declares fewer than `2 ^ 16` fields.  The memory behind a `Utf8Const` is what
it is when the class is prepared. -/
structure FieldsFile where
  declared : List DeclaredField
  few : declared.length < 2 ^ 16
  behind : List Char → BitVec 32

def inheritSize (superclass : Option ClassFields) (c : ClassFields) : ClassFields :=
  match superclass with
  | none => c
  | some superclass => { c with fsize := superclass.fsize }

def prepareFields (file : FieldsFile) (superclass : Option ClassFields) : Option ClassFields := do
  let c ← (file.declared.map DeclaredField.info).foldlM ClassFields.addField
    (.start file.declared.length)
  let c ← c.finishFields
  resolveObjectFields file.behind superclass (inheritSize superclass c)

def prepareHierarchy : List FieldsFile → Option (List ClassFields)
  | [] => some []
  | file :: supers => do
      let prepared ← prepareHierarchy supers
      let c ← prepareFields file prepared.head?
      return c :: prepared

/-! The array while the fields are added. -/

def DeclaredField.entry (d : DeclaredField) : Field where
  name := d.name
  type := .signature d.type.encode
  isStatic := d.isStatic
  resolved := false
  size := 0
  offset := 0

def statics (declared : List DeclaredField) : List DeclaredField :=
  declared.filter DeclaredField.isStatic

def instances (declared : List DeclaredField) : List DeclaredField :=
  declared.filter fun d => !d.isStatic

theorem length_statics_add (declared : List DeclaredField) :
    (statics declared).length + (instances declared).length = declared.length := by
  induction declared with
  | nil => rfl
  | cons d declared ih =>
      unfold statics instances at *
      cases flag : d.isStatic <;> simp [flag] <;> omega

def entries (declared : List DeclaredField) : List (Option Field) :=
  declared.map fun d => some d.entry

/-- With `left` fields still to be added: the static ones are at the start and the others, the
last one first, at the end. -/
def added (nfields : Int) (declared : List DeclaredField) (left : Nat) : ClassFields where
  fields := entries (statics declared) ++ List.replicate left none ++
    entries (instances declared).reverse
  nfields := nfields
  nsfields := toShort (statics declared).length
  fsize := left
  refField := 0

theorem length_entries (declared : List DeclaredField) :
    (entries declared).length = declared.length :=
  List.length_map _

theorem start_eq_added (count : Nat) :
    ClassFields.start count = added (toShort count) [] count := by
  have zero : toShort 0 = 0 := by decide
  dsimp only [ClassFields.start, added, statics, instances, entries]
  simp [zero]

theorem write_middle (c : ClassFields) {before after : List (Option Field)}
    {old : Option Field} {fields : List (Option Field)} (laid : fields = before ++ old :: after)
    {index : Int} (here : index = before.length) (field : Field) :
    { c with fields := fields }.write index field =
      some { c with fields := before ++ some field :: after } := by
  have inside : 0 ≤ index ∧ index < fields.length := by
    rw [laid, here, List.length_append, List.length_cons]
    omega
  rw [ClassFields.write, if_pos inside, laid, here, Int.toNat_natCast, set_middle]

theorem addField_info (c : ClassFields) (d : DeclaredField) : c.addField d.info =
    { c with
      fsize := c.fsize - 1
      nsfields := if d.isStatic then toShort (c.nsfields + 1) else c.nsfields }.write
        (if d.isStatic then c.nsfields else c.fsize - 1 + c.nsfields) d.entry :=
  rfl

theorem addField_static (nfields : Int) (declared : List DeclaredField) (left : Nat)
    {d : DeclaredField} (few : (statics declared).length < 2 ^ 15) (isStatic : d.isStatic) :
    (added nfields declared (left + 1)).addField d.info =
      some (added nfields (declared ++ [d]) left) := by
  have fits : toShort (statics declared).length = (statics declared).length :=
    toShort_of_fits (by omega) (by omega)
  have first : statics (declared ++ [d]) = statics declared ++ [d] := by
    simp [statics, isStatic]
  have second : instances (declared ++ [d]) = instances declared := by
    simp [instances, isStatic]
  have laid : (added nfields declared (left + 1)).fields = entries (statics declared) ++
      none :: (List.replicate left none ++ entries (instances declared).reverse) := by
    simp [added, List.replicate_succ]
  have here : (added nfields declared (left + 1)).nsfields =
      (entries (statics declared)).length := by
    rw [length_entries]
    dsimp only [added]
    exact fits
  have written := write_middle { added nfields declared (left + 1) with
    fsize := (added nfields declared (left + 1)).fsize - 1
    nsfields := toShort ((added nfields declared (left + 1)).nsfields + 1) } laid here d.entry
  rw [addField_info, if_pos isStatic, if_pos isStatic, written]
  dsimp only [added]
  rw [toShort_wraps, first, second, List.length_append, Nat.cast_add]
  simp [entries]

theorem addField_instance (nfields : Int) (declared : List DeclaredField) (left : Nat)
    {d : DeclaredField} (few : (statics declared).length < 2 ^ 15) (isStatic : ¬ d.isStatic) :
    (added nfields declared (left + 1)).addField d.info =
      some (added nfields (declared ++ [d]) left) := by
  have fits : toShort (statics declared).length = (statics declared).length :=
    toShort_of_fits (by omega) (by omega)
  have first : statics (declared ++ [d]) = statics declared := by
    simp [statics, isStatic]
  have second : instances (declared ++ [d]) = instances declared ++ [d] := by
    simp [instances, isStatic]
  have laid : (added nfields declared (left + 1)).fields =
      (entries (statics declared) ++ List.replicate left none) ++
        none :: entries (instances declared).reverse := by
    simp [added, List.replicate_succ']
  have here : (added nfields declared (left + 1)).fsize - 1 +
      (added nfields declared (left + 1)).nsfields =
        ((entries (statics declared) ++ List.replicate left none).length : Nat) := by
    rw [List.length_append, length_entries, List.length_replicate]
    dsimp only [added]
    rw [fits]
    omega
  have written := write_middle { added nfields declared (left + 1) with
    fsize := (added nfields declared (left + 1)).fsize - 1 } laid here d.entry
  rw [addField_info, if_neg isStatic, if_neg isStatic, written]
  dsimp only [added]
  rw [first, second]
  simp [entries]

def Countable (declared : List DeclaredField) : Prop :=
  (statics declared).length < 2 ^ 15 ∨
    (statics declared).length = 2 ^ 15 ∧ instances declared = []

theorem statics_append (first last : List DeclaredField) :
    statics (first ++ last) = statics first ++ statics last :=
  List.filter_append first last

theorem instances_append (first last : List DeclaredField) :
    instances (first ++ last) = instances first ++ instances last :=
  List.filter_append first last

theorem Countable.few {first last : List DeclaredField} {d : DeclaredField}
    (countable : Countable (first ++ d :: last)) : (statics first).length < 2 ^ 15 := by
  have split : first ++ d :: last = (first ++ [d]) ++ last := by simp
  rcases countable with fits | ⟨full, none⟩
  · rw [statics_append, List.length_append] at fits
    omega
  · rw [split, instances_append, List.append_eq_nil_iff, instances_append,
      List.append_eq_nil_iff] at none
    have isStatic : statics [d] = [d] := by
      have kept := none.1.2
      cases flag : d.isStatic <;> simp [statics, instances, flag] at kept ⊢
    rw [split, statics_append, statics_append, List.length_append, List.length_append,
      isStatic] at full
    have one : [d].length = 1 := rfl
    omega

theorem addFields_added (nfields : Int) {rest : List DeclaredField} :
    ∀ {done : List DeclaredField}, Countable (done ++ rest) →
      (rest.map DeclaredField.info).foldlM ClassFields.addField (added nfields done rest.length) =
        some (added nfields (done ++ rest) 0) := by
  induction rest with
  | nil =>
      intro done _
      rw [List.append_nil]
      rfl
  | cons d rest ih =>
      intro done countable
      have few := countable.few
      have first : (added nfields done (rest.length + 1)).addField d.info =
          some (added nfields (done ++ [d]) rest.length) := by
        by_cases isStatic : d.isStatic
        · exact addField_static nfields done rest.length few isStatic
        · exact addField_instance nfields done rest.length few isStatic
      have split : done ++ d :: rest = (done ++ [d]) ++ rest := by simp
      rw [split] at countable
      rw [split, List.map_cons, List.foldlM_cons, List.length_cons, first]
      exact ih countable

/-! The counts whatever has been declared. -/

theorem write_some {c after : ClassFields} {index : Int} {field : Field}
    (written : c.write index field = some after) : 0 ≤ index ∧
      after = { c with fields := c.fields.set index.toNat (some field) } := by
  rw [ClassFields.write] at written
  split at written
  · next inside => exact ⟨inside.1, (Option.some.inj written).symm⟩
  · cases written

/-- No more static fields can be added than there are indices. -/
theorem addFields_counts {l : List DeclaredField} :
    ∀ {c after : ClassFields} {n : Nat}, c.nsfields = toShort n → n ≤ 2 ^ 15 →
      (l.map DeclaredField.info).foldlM ClassFields.addField c = some after →
        after.nfields = c.nfields ∧ after.nsfields = toShort (n + (statics l).length : Nat) ∧
          n + (statics l).length ≤ 2 ^ 15 := by
  induction l with
  | nil =>
      intro c after n counted few done
      cases done
      exact ⟨rfl, counted, few⟩
  | cons d l ih =>
      intro c after n counted few done
      rw [List.map_cons, List.foldlM_cons] at done
      obtain ⟨next, first, later⟩ := Option.bind_eq_some_iff.mp done
      rw [addField_info] at first
      obtain ⟨low, rfl⟩ := write_some first
      by_cases isStatic : d.isStatic
      · rw [if_pos isStatic, counted] at low
        have below : n < 2 ^ 15 := by
          by_contra full
          rw [toShort_of_large (by omega) (by omega)] at low
          omega
        have next : (if d.isStatic then toShort (c.nsfields + 1) else c.nsfields) =
            toShort (n + 1 : Nat) := by
          rw [if_pos isStatic, counted, toShort_wraps]
          rfl
        obtain ⟨total, statically, fits⟩ := ih (by exact next) below later
        have more : (statics (d :: l)).length = (statics l).length + 1 := by
          simp [statics, isStatic]
        have sum : n + 1 + (statics l).length = n + (statics (d :: l)).length := by omega
        rw [sum] at statically fits
        exact ⟨total, statically, fits⟩
      · have next : (if d.isStatic then toShort (c.nsfields + 1) else c.nsfields) =
            toShort n := by
          rw [if_neg isStatic, counted]
        have same : statics (d :: l) = statics l := by
          simp [statics, isStatic]
        have result := ih (by exact next) few later
        rw [same]
        exact result

/-! The layout of a class whose fields can be counted. -/

/-- `nfields` and `nsfields` are `short`. -/
def Counted (declared : List DeclaredField) : Prop :=
  declared.length < 2 ^ 15 ∨ declared.length = 2 ^ 15 ∧ instances declared = []

theorem Counted.countable {declared : List DeclaredField} (counted : Counted declared) :
    Countable declared := by
  have all := length_statics_add declared
  rcases counted with few | ⟨full, none⟩
  · exact .inl (by omega)
  · rw [none, List.length_nil] at all
    exact .inr ⟨by omega, none⟩

def finished (declared : List DeclaredField) (fsize : Int) : ClassFields where
  fields := entries (statics declared) ++ entries (instances declared)
  nfields := toShort declared.length
  nsfields := toShort (statics declared).length
  fsize := fsize
  refField := 0

section

variable {declared : List DeclaredField}

theorem nifields_eq (counted : Counted declared) :
    toShort declared.length - toShort (statics declared).length =
      (instances declared).length := by
  have all := length_statics_add declared
  rcases counted with few | ⟨full, none⟩
  · rw [toShort_of_fits (by omega) (by omega), toShort_of_fits (by omega) (by omega)]
    omega
  · rw [none, List.length_nil] at all ⊢
    have same : (statics declared).length = declared.length := by omega
    rw [same, Int.sub_self]
    rfl

theorem nsfields_eq (counted : Counted declared) (some : instances declared ≠ []) :
    toShort (statics declared).length = (statics declared).length := by
  have all := length_statics_add declared
  rcases counted with few | ⟨_, none⟩
  · exact toShort_of_fits (by omega) (by omega)
  · exact absurd none some

theorem reverse_of_length_le_one {α : Type} {l : List α} (short : l.length ≤ 1) :
    l.reverse = l := by
  match l, short with
  | [], _ => rfl
  | [a], _ => rfl

theorem reverse_entries (declared : List DeclaredField) :
    (entries declared.reverse).reverse = entries declared := by
  rw [entries, ← List.map_reverse, List.reverse_reverse]
  rfl

theorem finishFields_added (counted : Counted declared) :
    (added (toShort declared.length) declared 0).finishFields = some (finished declared 0) := by
  have count : (added (toShort declared.length) declared 0).nifields =
      (instances declared).length := by
    dsimp only [ClassFields.nifields, added]
    exact nifields_eq counted
  rw [ClassFields.finishFields, count]
  by_cases short : (instances declared).length ≤ 1
  · rw [if_pos (by omega)]
    dsimp only [added, finished]
    rw [reverse_of_length_le_one short, List.replicate_zero, List.append_nil]
    rfl
  · have nonempty : instances declared ≠ [] := by
      intro empty
      rw [empty] at short
      exact short (Nat.zero_le 1)
    have first : (added (toShort declared.length) declared 0).nsfields =
        (entries (statics declared)).length := by
      rw [length_entries]
      dsimp only [added]
      exact nsfields_eq counted nonempty
    have length : (instances declared).length = (entries (instances declared).reverse).length := by
      rw [length_entries, List.length_reverse]
    have part := reverseEnds_part (entries (statics declared))
      (entries (instances declared).reverse) []
    have start : (added (toShort declared.length) declared 0).nsfields.toNat =
        (entries (statics declared)).length := by
      rw [first, Int.toNat_natCast]
    rw [if_neg (by omega), if_pos (by omega), start, Int.toNat_natCast, length]
    dsimp only [added]
    rw [List.append_nil, List.append_nil, reverse_entries] at part
    rw [List.replicate_zero, List.append_nil, part]
    rfl

theorem mapM_entries (declared : List DeclaredField) :
    (entries declared).mapM id = some (declared.map DeclaredField.entry) := by
  induction declared with
  | nil => rfl
  | cons d declared ih =>
      have split : entries (d :: declared) = some d.entry :: entries declared := rfl
      rw [split, List.mapM_cons, ih]
      rfl

theorem ifields_finished (counted : Counted declared) (fsize : Int) :
    (finished declared fsize).ifields = some ((instances declared).map DeclaredField.entry) := by
  have count : (finished declared fsize).nifields = (instances declared).length := by
    dsimp only [ClassFields.nifields, finished]
    exact nifields_eq counted
  rw [ClassFields.ifields, count]
  by_cases empty : instances declared = []
  · rw [empty]
    exact if_pos (Int.le_refl _)
  · have first : (finished declared fsize).nsfields = (entries (statics declared)).length := by
      rw [length_entries]
      dsimp only [finished]
      exact nsfields_eq counted empty
    have positive := List.length_pos_iff.mpr empty
    have length := length_entries (instances declared)
    rw [if_neg (by omega), first, if_pos]
    · rw [Int.toNat_natCast, Int.toNat_natCast]
      dsimp only [finished]
      rw [List.drop_left, ← length, List.take_length]
      exact mapM_entries _
    · dsimp only [finished]
      rw [List.length_append, length]
      omega

end

/-! The sizes and the offsets. -/

def isReference : FieldType → Bool
  | .prim _ => false
  | .object _ => true
  | .array _ => true

def DeclaredField.sized (d : DeclaredField) : Field :=
  if isReference d.type then
    { d.entry with size := LaTTe.Gc.ptrTypeSize }
  else
    { d.entry with
      type := .loaded d.type.toClass
      size := d.type.toClass.size
      resolved := true }

theorem sizeField_entry (d : DeclaredField) : sizeField d.entry = some d.sized := by
  cases d with
  | mk isStatic name type =>
      cases type with
      | prim type => cases type <;> rfl
      | object name => rfl
      | array component => rfl

theorem mapM_sizeField (declared : List DeclaredField) :
    (declared.map DeclaredField.entry).mapM sizeField =
      some (declared.map DeclaredField.sized) := by
  induction declared with
  | nil => rfl
  | cons d declared ih =>
      rw [List.map_cons, List.mapM_cons, sizeField_entry, ih]
      rfl

theorem size_sized (d : DeclaredField) : d.sized.size = d.type.toClass.size := by
  cases d with
  | mk isStatic name type =>
      cases type with
      | prim type => rfl
      | object name => rfl
      | array component => rfl

theorem size_positive (d : DeclaredField) : 0 < d.sized.size := by
  rw [size_sized]
  cases d.type with
  | prim type => cases type <;> exact Nat.succ_pos _
  | object name => exact Nat.succ_pos _
  | array component => exact Nat.succ_pos _

theorem placedSize_sized (d : DeclaredField) :
    (if d.sized.resolved then d.sized.size else LaTTe.Gc.ptrTypeSize) = d.sized.size := by
  cases d with
  | mk isStatic name type =>
      cases type with
      | prim type => rfl
      | object name => rfl
      | array component => rfl

def countedRefs (behind : List Char → BitVec 32) (declared : List DeclaredField) : Nat :=
  declared.countP fun d => isReference d.type && decide (behind d.type.encode ≠ -1)

theorem isRef_sized (behind : List Char → BitVec 32) (d : DeclaredField) :
    isRef behind d.sized = (isReference d.type && decide (behind d.type.encode ≠ -1)) := by
  cases d with
  | mk isStatic name type =>
      cases type with
      | prim type => rfl
      | object name => rfl
      | array component => rfl

def laidFields (offset : Nat) (declared : List DeclaredField) : List Field :=
  (placed Field.size offset (declared.map DeclaredField.sized)).map fun entry =>
    { entry.1 with offset := entry.2 }

def laidEnd (offset : Nat) (declared : List DeclaredField) : Nat :=
  placedEnd Field.size offset (declared.map DeclaredField.sized)

theorem placeFields_sized (behind : List Char → BitVec 32) (declared : List DeclaredField) :
    ∀ (offset : Nat) (refField : Int),
      placeFields behind (declared.map DeclaredField.sized) offset refField =
        some (laidFields offset declared, laidEnd offset declared,
          refField + countedRefs behind declared) := by
  induction declared with
  | nil =>
      intro offset refField
      exact congrArg (fun n => some ([], offset, n)) (Int.add_zero refField).symm
  | cons d declared ih =>
      intro offset refField
      have positive := (size_positive d).ne'
      rw [List.map_cons, placeFields, placedSize_sized, if_neg positive]
      dsimp only
      rw [ih, isRef_sized]
      have counted : (if (isReference d.type && decide (behind d.type.encode ≠ -1)) = true then
          refField + 1 else refField) + countedRefs behind declared =
            refField + countedRefs behind (d :: declared) := by
        rw [countedRefs, countedRefs, List.countP_cons]
        split
        · omega
        · omega
      rw [counted]
      rfl

theorem one_le_largestAlign (fields : List Field) : 1 ≤ largestAlign fields := by
  have larger : ∀ align, align ≤ fields.foldl
      (fun align field => if field.size > align then field.size else align) align := by
    induction fields with
    | nil => exact fun align => le_rfl
    | cons field fields ih =>
        intro align
        have next := ih (if field.size > align then field.size else align)
        rw [List.foldl_cons]
        refine le_trans ?_ next
        split
        · omega
        · exact le_rfl
  exact larger 1

/-! What a class has become. -/

def instanceFields (c : ClassFields) : List Field :=
  (c.fields.filterMap id).filter fun field => !field.isStatic

theorem resolve_eq {behind : List Char → BitVec 32} {superclass : Option ClassFields}
    {c : ClassFields} {start last : Nat} {base refs : Int} {fields sized laid : List Field}
    (starts : startOfFields superclass c = some (start, base)) (own : c.ifields = some fields)
    (sizes : fields.mapM sizeField = some sized)
    (placing : placeFields behind sized (roundUp start (largestAlign sized)) base =
      some (laid, last, refs)) :
    resolveObjectFields behind superclass c =
      some { c.setIfields laid with fsize := last, refField := refs } := by
  rw [resolveObjectFields, starts]
  dsimp only [Option.bind_eq_bind, Option.bind_some]
  rw [own]
  dsimp only [Option.bind_some]
  rw [sizes]
  dsimp only [Option.bind_some]
  rw [placing]
  rfl

def resolved (declared : List DeclaredField) (offset : Nat) (refs : Int) : ClassFields where
  fields := entries (statics declared) ++ (laidFields offset (instances declared)).map some
  nfields := toShort declared.length
  nsfields := toShort (statics declared).length
  fsize := laidEnd offset (instances declared)
  refField := refs

theorem length_laidFields (offset : Nat) (declared : List DeclaredField) :
    (laidFields offset declared).length = declared.length := by
  have same := congrArg List.length
    (placed_fst Field.size offset (declared.map DeclaredField.sized))
  rw [List.length_map, List.length_map] at same
  rw [laidFields, List.length_map, same]

theorem setIfields_finished {declared : List DeclaredField} (counted : Counted declared)
    (fsize : Int) (offset : Nat) (refs : Int) :
    { (finished declared fsize).setIfields (laidFields offset (instances declared)) with
      fsize := (laidEnd offset (instances declared) : Int), refField := refs } =
        resolved declared offset refs := by
  have laid : (finished declared fsize).fields.take (finished declared fsize).nsfields.toNat ++
      (laidFields offset (instances declared)).map some ++ (finished declared fsize).fields.drop
        ((finished declared fsize).nsfields.toNat +
          (laidFields offset (instances declared)).length) =
        entries (statics declared) ++ (laidFields offset (instances declared)).map some := by
    dsimp only [finished]
    rcases eq_or_ne (instances declared) [] with empty | some
    · have none : laidFields offset (instances declared) = [] := by
        rw [empty]
        rfl
      rw [none, empty, List.map_nil, List.append_nil, List.length_nil, Nat.add_zero,
        List.take_append_drop]
      rfl
    · rw [nsfields_eq counted some, Int.toNat_natCast, length_laidFields, List.drop_of_length_le,
        List.append_nil, ← length_entries (statics declared), List.take_left]
      rw [List.length_append, length_entries, length_entries]
  dsimp only [ClassFields.setIfields]
  rw [laid]
  dsimp only [finished, resolved]

theorem resolve_finished (file : FieldsFile) (counted : Counted file.declared)
    {superclass : Option ClassFields} {fsize : Int} {start : Nat} {base : Int}
    (starts : startOfFields superclass (finished file.declared fsize) = some (start, base)) :
    ∃ offset, start ≤ offset ∧
      resolveObjectFields file.behind superclass (finished file.declared fsize) =
        some (resolved file.declared offset
          (base + countedRefs file.behind (instances file.declared))) := by
  have own := ifields_finished counted fsize
  have sizes := mapM_sizeField (instances file.declared)
  have placing := placeFields_sized file.behind (instances file.declared)
    (roundUp start (largestAlign ((instances file.declared).map DeclaredField.sized))) base
  refine ⟨roundUp start (largestAlign ((instances file.declared).map DeclaredField.sized)),
    le_roundUp start (one_le_largestAlign _), ?_⟩
  rw [resolve_eq starts own sizes placing, setIfields_finished counted]

theorem prepareFields_eq {file : FieldsFile} {superclass : Option ClassFields}
    {added finished : ClassFields}
    (reads : (file.declared.map DeclaredField.info).foldlM ClassFields.addField
      (.start file.declared.length) = some added)
    (finishes : added.finishFields = some finished) :
    prepareFields file superclass =
      resolveObjectFields file.behind superclass (inheritSize superclass finished) := by
  rw [prepareFields, reads]
  dsimp only [Option.bind_eq_bind, Option.bind_some]
  rw [finishes]
  rfl

theorem start_addFields {declared : List DeclaredField} (countable : Countable declared) :
    (declared.map DeclaredField.info).foldlM ClassFields.addField (.start declared.length) =
      some (added (toShort declared.length) declared 0) := by
  rw [start_eq_added]
  exact addFields_added _ countable

def objectSize : List ClassFields → Int
  | [] => sizeofObject
  | c :: _ => c.fsize

def references : List ClassFields → Int
  | [] => 0
  | c :: _ => c.refField

theorem startOfFields_none {superclass : Option ClassFields} {c : ClassFields}
    (none : c.fsize = 0) : startOfFields superclass c = some (sizeofObject, c.refField) :=
  if_pos none

theorem startOfFields_some {superclass c : ClassFields} (some : c.fsize ≠ 0) :
    startOfFields (Option.some superclass) c =
      Option.some (c.fsize.toNat, superclass.refField) :=
  if_neg some

theorem inheritSize_finished (c : ClassFields) (declared : List DeclaredField) :
    inheritSize (some c) (finished declared 0) = finished declared c.fsize := by
  dsimp only [inheritSize, finished]

theorem prepareFields_counted (file : FieldsFile) (counted : Counted file.declared)
    {inherited : List ClassFields} {start : Nat} (size : objectSize inherited = start)
    (positive : 0 < start) :
    ∃ offset, start ≤ offset ∧ prepareFields file inherited.head? =
      some (resolved file.declared offset
        (references inherited + countedRefs file.behind (instances file.declared))) := by
  rw [prepareFields_eq (start_addFields counted.countable) (finishFields_added counted)]
  cases inherited with
  | nil =>
      have starts : startOfFields none (finished file.declared 0) =
          some (start, references []) := by
        have header : sizeofObject = start := Int.ofNat_inj.mp size
        rw [startOfFields_none rfl, header]
        rfl
      exact resolve_finished file counted starts
  | cons c rest =>
      have same : c.fsize = start := size
      have starts : startOfFields (some c) (finished file.declared c.fsize) =
          some (start, references (c :: rest)) := by
        have nonzero : (finished file.declared c.fsize).fsize ≠ 0 := by
          dsimp only [finished]
          omega
        rw [startOfFields_some nonzero]
        dsimp only [finished]
        rw [same, Int.toNat_natCast]
        rfl
      rw [List.head?_cons, inheritSize_finished]
      exact resolve_finished file counted starts

/-! The fields of the objects of a class. -/

theorem sized_positive {declared : List DeclaredField} :
    ∀ field ∈ declared.map DeclaredField.sized, 0 < field.size := by
  intro field mem
  obtain ⟨d, _, rfl⟩ := List.mem_map.mp mem
  exact size_positive d

theorem laidFields_bounds {offset : Nat} {declared : List DeclaredField} :
    ∀ field ∈ laidFields offset declared, offset ≤ field.offset ∧ field.size ∣ field.offset ∧
      field.offset + field.size ≤ laidEnd offset declared := by
  intro field mem
  obtain ⟨entry, there, rfl⟩ := List.mem_map.mp mem
  exact placed_bounds sized_positive entry there

theorem laidFields_apart {offset : Nat} {declared : List DeclaredField} :
    (laidFields offset declared).Pairwise fun first second =>
      first.offset + first.size ≤ second.offset := by
  have apart : (placed Field.size offset (declared.map DeclaredField.sized)).Pairwise
      fun first second => first.2 + first.1.size ≤ second.2 :=
    placed_apart sized_positive
  rw [laidFields, List.pairwise_map]
  exact apart

theorem le_laidEnd {offset : Nat} {declared : List DeclaredField} :
    offset ≤ laidEnd offset declared :=
  le_placedEnd sized_positive

def DeclaredField.label (d : DeclaredField) : List Char × Nat :=
  (d.name, d.type.toClass.size)

def Field.label (field : Field) : List Char × Nat :=
  (field.name, field.size)

theorem label_laidFields {offset : Nat} {declared : List DeclaredField} :
    (laidFields offset declared).map Field.label = declared.map DeclaredField.label := by
  have same := congrArg (List.map Field.label)
    (placed_fst Field.size offset (declared.map DeclaredField.sized))
  rw [List.map_map, List.map_map] at same
  rw [laidFields, List.map_map]
  refine same.trans (List.map_congr_left fun d _ => ?_)
  have name : d.sized.name = d.name := by
    rw [DeclaredField.sized]
    split <;> rfl
  exact Prod.ext name (size_sized d)

theorem laidFields_isStatic {offset : Nat} {declared : List DeclaredField} {field : Field}
    (mem : field ∈ laidFields offset (instances declared)) : field.isStatic = false := by
  obtain ⟨entry, there, rfl⟩ := List.mem_map.mp mem
  have item : entry.1 ∈ (instances declared).map DeclaredField.sized := by
    rw [← placed_fst Field.size offset ((instances declared).map DeclaredField.sized)]
    exact List.mem_map_of_mem there
  obtain ⟨d, kept, same⟩ := List.mem_map.mp item
  have own : d.isStatic = false := by simpa [instances] using (List.mem_filter.mp kept).2
  have flag : d.sized.isStatic = d.isStatic := by
    rw [DeclaredField.sized]
    split <;> rfl
  rw [← same]
  exact flag.trans own

theorem filter_static_entries (declared : List DeclaredField) :
    ((statics declared).map DeclaredField.entry).filter (fun field => !field.isStatic) = [] := by
  rw [List.filter_eq_nil_iff]
  intro field mem
  obtain ⟨d, kept, rfl⟩ := List.mem_map.mp mem
  have own : d.isStatic = true := (List.mem_filter.mp kept).2
  have flag : d.entry.isStatic = true := own
  simp [flag]

theorem instanceFields_resolved (declared : List DeclaredField) (offset : Nat) (refs : Int) :
    instanceFields (resolved declared offset refs) = laidFields offset (instances declared) := by
  have first : entries (statics declared) =
      ((statics declared).map DeclaredField.entry).map some := by
    rw [List.map_map]
    rfl
  have all : ∀ l : List Field, (l.map some).filterMap id = l := by
    intro l
    rw [List.filterMap_map]
    exact List.filterMap_some
  dsimp only [instanceFields, resolved]
  rw [first, List.filterMap_append, all, all, List.filter_append, filter_static_entries,
    List.nil_append, List.filter_eq_self]
  intro field mem
  rw [laidFields_isStatic mem]
  rfl

end LaTTe.Classes.Fields
