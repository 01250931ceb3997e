import LaTTe.Classes.Dispatch
import LaTTe.Gc.Regions.Arrays

namespace LaTTe.Classes

open LaTTe.Gc (PrimitiveType ptrTypeSize)

/-! Descriptors, as the characters before the terminating zero.  What reads beyond it, or
aborts, returns nothing. -/

structure ClassName where
  text : List Char
  inside : ';' ∉ text

inductive FieldType where
  | prim (type : PrimitiveType)
  | object (name : ClassName)
  | array (component : FieldType)

structure MethodDescriptor where
  params : List FieldType
  result : Option FieldType

def primSig : PrimitiveType → Char
  | .byte => 'B'
  | .short => 'S'
  | .int => 'I'
  | .long => 'J'
  | .boolean => 'Z'
  | .char => 'C'
  | .float => 'F'
  | .double => 'D'

def FieldType.encode : FieldType → List Char
  | .prim type => [primSig type]
  | .object name => 'L' :: (name.text ++ [';'])
  | .array component => '[' :: component.encode

def encodeResult : Option FieldType → List Char
  | none => ['V']
  | some type => type.encode

def MethodDescriptor.encode (d : MethodDescriptor) : List Char :=
  '(' :: (d.params.flatMap FieldType.encode ++ ')' :: encodeResult d.result)

def FieldType.slots : FieldType → Nat
  | .prim .long => 2
  | .prim .double => 2
  | _ => 1

def MethodDescriptor.slots (d : MethodDescriptor) : Nat :=
  (d.params.map FieldType.slots).sum

/-! The readers of the run time system. -/

def skipName : List Char → Option (List Char)
  | [] => none
  | ';' :: rest => some rest
  | _ :: rest => skipName rest

def arrayOfArray : List Char → Option (List Char)
  | [] => none
  | 'L' :: rest => skipName rest
  | '[' :: rest => arrayOfArray rest
  | _ :: rest => some rest

def refCount (wantWideRefs : Bool) : Int :=
  if wantWideRefs then 4 / 4 else 1

def sizeofSigItem (wantWideRefs : Bool) : List Char → Option (Int × List Char)
  | [] => some (-1, [])
  | head :: rest =>
      match head with
      | '(' => sizeofSigItem wantWideRefs rest
      | ')' => some (-1, rest)
      | 'V' => some (0, rest)
      | 'I' | 'Z' | 'S' | 'B' | 'C' | 'F' => some (1, rest)
      | 'D' | 'J' => some (2, rest)
      | '[' => (arrayOfArray rest).map fun after => (refCount wantWideRefs, after)
      | 'L' => (skipName rest).map fun after => (refCount wantWideRefs, after)
      | _ => none

theorem skipName_shorter {str rest : List Char} (skipped : skipName str = some rest) :
    rest.length < str.length := by
  induction str using skipName.induct with
  | case1 => cases skipped
  | case2 after =>
      cases skipped
      exact Nat.lt_succ_self _
  | case3 head after other ih =>
      rw [skipName] at skipped
      · exact Nat.lt_succ_of_lt (ih skipped)
      · exact other

theorem arrayOfArray_shorter {str rest : List Char} (skipped : arrayOfArray str = some rest) :
    rest.length < str.length := by
  induction str using arrayOfArray.induct with
  | case1 => cases skipped
  | case2 after => exact Nat.lt_succ_of_lt (skipName_shorter skipped)
  | case3 after ih => exact Nat.lt_succ_of_lt (ih skipped)
  | case4 head after notObject notArray =>
      rw [arrayOfArray] at skipped
      · cases skipped
        exact Nat.lt_succ_self _
      · exact notObject
      · exact notArray

theorem sizeofSigItem_shorter {wide : Bool} {str rest : List Char} {count : Int}
    (read : sizeofSigItem wide str = some (count, rest)) (goesOn : count ≠ -1) :
    rest.length < str.length := by
  induction str with
  | nil =>
      cases read
      exact absurd rfl goesOn
  | cons head after ih =>
      dsimp only [sizeofSigItem] at read
      split at read
      case h_1 => exact Nat.lt_succ_of_lt (ih read)
      case h_2 =>
        cases read
        exact absurd rfl goesOn
      case h_12 =>
        obtain ⟨behind, skipped, same⟩ := Option.map_eq_some_iff.mp read
        cases same
        exact Nat.lt_succ_of_lt (arrayOfArray_shorter skipped)
      case h_13 =>
        obtain ⟨behind, skipped, same⟩ := Option.map_eq_some_iff.mp read
        cases same
        exact Nat.lt_succ_of_lt (skipName_shorter skipped)
      case h_14 => cases read
      all_goals
        cases read
        exact Nat.lt_succ_self _

def sizeofSig (wantWideRefs : Bool) (str : List Char) : Option (Int × List Char) :=
  match _ : sizeofSigItem wantWideRefs str with
  | none => none
  | some (count, rest) =>
      if _ : count = -1 then
        some (0, rest)
      else
        (sizeofSig wantWideRefs rest).map fun (more, last) => (count + more, last)
termination_by str.length
decreasing_by exact sizeofSigItem_shorter ‹_› ‹_›

theorem toShort_of_fits {n : Int} (low : 0 ≤ n) (fits : n < 2 ^ 15) : toShort n = n := by
  rw [toShort]
  apply Int.bmod_eq_of_le <;> omega

theorem toShort_of_large {n : Int} (large : 2 ^ 15 ≤ n) (fits : n < 2 ^ 16) :
    toShort n = n - 2 ^ 16 := by
  have wrapped : (n - 2 ^ 16).bmod (2 ^ 16) = n - 2 ^ 16 := by
    apply Int.bmod_eq_of_le <;> omega
  rw [toShort, ← wrapped, ← Int.add_bmod_right (n - 2 ^ 16)]
  congr 1
  omega

theorem toShort_lt (n : Int) : toShort n < 2 ^ 15 := by
  rw [toShort]
  exact Int.bmod_lt (by decide)

theorem toShort_wraps (n m : Int) : toShort (toShort n + m) = toShort (n + m) := by
  rw [toShort, toShort, toShort]
  exact Int.bmod_add_bmod

structure InsAndOuts where
  ins : Int
  outs : Int
  outtype : Char
  deriving DecidableEq, Repr

def countInsAndOuts (str : List Char) : Option InsAndOuts := do
  let (ins, result) ← sizeofSig false str
  let outtype ← result.head?
  let (outs, _) ← sizeofSig false result
  return ⟨toShort ins, toShort outs, outtype⟩

/-- A class, as `lookupArray` and `loadClass` are asked for it. -/
inductive SigClass where
  | void
  | prim (type : PrimitiveType)
  | array (component : SigClass)
  | named (name : List Char)
  deriving DecidableEq, Repr

/-- `TYPE_SIZE`. -/
def SigClass.size : SigClass → Nat
  | .void => 0
  | .prim type => type.size
  | .array _ | .named _ => ptrTypeSize

def SigClass.words (c : SigClass) : Nat := (c.size + 3) / 4

def classFromSig : List Char → Option (SigClass × List Char)
  | [] => none
  | head :: rest =>
      match head with
      | 'V' => some (.void, rest)
      | 'I' => some (.prim .int, rest)
      | 'Z' => some (.prim .boolean, rest)
      | 'S' => some (.prim .short, rest)
      | 'B' => some (.prim .byte, rest)
      | 'C' => some (.prim .char, rest)
      | 'F' => some (.prim .float, rest)
      | 'D' => some (.prim .double, rest)
      | 'J' => some (.prim .long, rest)
      | '[' => (classFromSig rest).map fun (component, after) => (.array component, after)
      | 'L' =>
          let name := rest.takeWhile (· ≠ ';')
          some (.named name, (rest.drop name.length).drop 1)
      | _ => none

/-! Each reader comes to the end of the type that it is at. -/

theorem skipName_append {name : List Char} (inside : ';' ∉ name) (rest : List Char) :
    skipName (name ++ ';' :: rest) = some rest := by
  induction name with
  | nil => rfl
  | cons head tail ih =>
      have other : head ≠ ';' := fun same => inside (same ▸ List.mem_cons_self)
      rw [List.cons_append, skipName]
      · exact ih fun mem => inside (List.mem_cons_of_mem head mem)
      · exact other

theorem skipName_name (name : ClassName) (rest : List Char) :
    skipName (name.text ++ [';'] ++ rest) = some rest := by
  rw [List.append_assoc]
  exact skipName_append name.inside rest

theorem arrayOfArray_encode (type : FieldType) (rest : List Char) :
    arrayOfArray (type.encode ++ rest) = some rest := by
  induction type with
  | prim type => cases type <;> rfl
  | object name => exact skipName_name name rest
  | array component ih => exact ih

theorem sizeofSigItem_encode (type : FieldType) (wide : Bool) (rest : List Char) :
    sizeofSigItem wide (type.encode ++ rest) = some ((type.slots : Int), rest) := by
  have one : refCount wide = 1 := by cases wide <;> rfl
  cases type with
  | prim type => cases type <;> rfl
  | object name =>
      have skipped := skipName_name name rest
      dsimp only [FieldType.encode, List.cons_append, sizeofSigItem]
      rw [skipped, one]
      rfl
  | array component =>
      have skipped := arrayOfArray_encode component rest
      dsimp only [FieldType.encode, List.cons_append, sizeofSigItem]
      rw [skipped, one]
      rfl

def FieldType.toClass : FieldType → SigClass
  | .prim type => .prim type
  | .object name => .named name.text
  | .array component => .array component.toClass

theorem FieldType.words_toClass (type : FieldType) : type.toClass.words = type.slots := by
  have reference : (ptrTypeSize + 3) / 4 = 1 := by decide
  cases type with
  | prim type => cases type <;> rfl
  | object name => exact reference
  | array component => exact reference

theorem classFromSig_encode (type : FieldType) (rest : List Char) :
    classFromSig (type.encode ++ rest) = some (type.toClass, rest) := by
  induction type with
  | prim type => cases type <;> rfl
  | object name =>
      have text : (name.text ++ [';'] ++ rest).takeWhile (· ≠ ';') = name.text := by
        rw [List.append_assoc, List.takeWhile_append_of_pos]
        · exact List.append_nil _
        · intro c mem
          exact decide_eq_true fun same => name.inside (same ▸ mem)
      dsimp only [FieldType.encode, List.cons_append, classFromSig]
      rw [text, List.append_assoc, List.drop_left]
      rfl
  | array component ih =>
      dsimp only [FieldType.encode, List.cons_append, classFromSig]
      rw [ih]
      rfl

theorem sizeofSig_item {wide : Bool} {str rest : List Char} {count : Int}
    (read : sizeofSigItem wide str = some (count, rest)) (goesOn : count ≠ -1) :
    sizeofSig wide str =
      (sizeofSig wide rest).map fun (more, last) => (count + more, last) := by
  rw [sizeofSig]
  split
  · next nothing => cases nothing.symm.trans read
  · next n after found =>
      cases found.symm.trans read
      rw [dif_neg goesOn]

theorem sizeofSig_stop {wide : Bool} {str rest : List Char}
    (read : sizeofSigItem wide str = some (-1, rest)) :
    sizeofSig wide str = some (0, rest) := by
  rw [sizeofSig]
  split
  · next nothing => cases nothing.symm.trans read
  · next n after found =>
      cases found.symm.trans read
      exact dif_pos rfl

theorem sizeofSig_params (params : List FieldType) (wide : Bool) (rest : List Char) :
    sizeofSig wide (params.flatMap FieldType.encode ++ ')' :: rest) =
      some (((params.map FieldType.slots).sum : Int), rest) := by
  induction params with
  | nil => exact sizeofSig_stop rfl
  | cons type params ih =>
      rw [List.flatMap_cons, List.append_assoc,
        sizeofSig_item (sizeofSigItem_encode type wide _) (by omega), ih]
      rw [List.map_cons, List.sum_cons, Nat.cast_add]
      rfl

def resultSlots : Option FieldType → Nat
  | none => 0
  | some type => type.slots

theorem sizeofSig_result (result : Option FieldType) (wide : Bool) :
    sizeofSig wide (encodeResult result) = some ((resultSlots result : Int), []) := by
  have item : sizeofSigItem wide (encodeResult result) = some ((resultSlots result : Int), []) := by
    cases result with
    | none => rfl
    | some type =>
        have read := sizeofSigItem_encode type wide []
        rwa [List.append_nil] at read
  rw [sizeofSig_item item (by omega), sizeofSig_stop rfl]
  rfl

theorem sizeofSig_open (wide : Bool) (str : List Char) :
    sizeofSig wide ('(' :: str) = sizeofSig wide str := by
  rw [sizeofSig.eq_def, sizeofSig.eq_def wide str]
  rfl

theorem sizeofSig_encode (d : MethodDescriptor) (wide : Bool) :
    sizeofSig wide d.encode = some ((d.slots : Int), encodeResult d.result) := by
  rw [MethodDescriptor.encode, sizeofSig_open, sizeofSig_params]
  rfl

theorem encodeResult_cons (result : Option FieldType) :
    ∃ head tail, encodeResult result = head :: tail := by
  cases result with
  | none => exact ⟨'V', [], rfl⟩
  | some type => cases type <;> exact ⟨_, _, rfl⟩

theorem countInsAndOuts_encode (d : MethodDescriptor) : ∃ outs outtype,
    countInsAndOuts d.encode = some ⟨toShort d.slots, outs, outtype⟩ := by
  obtain ⟨head, tail, starts⟩ := encodeResult_cons d.result
  have result := sizeofSig_result d.result false
  refine ⟨toShort (resultSlots d.result), head, ?_⟩
  rw [countInsAndOuts, sizeofSig_encode]
  rw [starts] at result ⊢
  dsimp only [Option.bind_eq_bind, Option.bind_some, List.head?_cons]
  rw [result]
  rfl

end LaTTe.Classes
