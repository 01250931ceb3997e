import LaTTe.Classes.Descriptor
import LaTTe.Sequences.Emit

namespace LaTTe.Sequences

open LaTTe.Classes
open LaTTe.Translator (VarType)

/-! The arguments of a method, as the caller takes them from its operand stack and as the
callee has them in its local variables. -/

inductive ReturnType where
  | noReturn | integer | long | float | double | reference
  deriving DecidableEq, Repr

def argumentWords : Char → Option (List VarType)
  | 'I' | 'Z' | 'S' | 'B' | 'C' => some [.int]
  | 'F' => some [.float]
  | 'J' => some [.long, .ivoid]
  | 'D' => some [.double, .fvoid]
  | 'L' => some [.ref]
  | '[' => some [.ref]
  | _ => none

def skipComponents (arrayDepth : Int) : List Char → Option (List Char)
  | [] => none
  | head :: rest =>
      if head = 'L' then
        match _ : skipName rest with
        | none => none
        | some after =>
            if arrayDepth - 1 = 0 then some after else skipComponents (arrayDepth - 1) after
      else
        let depth := if head = '[' then arrayDepth - 1 + 1 else arrayDepth - 1
        if depth = 0 then some rest else skipComponents depth rest
termination_by str => str.length
decreasing_by
  · exact Nat.lt_succ_of_lt (skipName_shorter ‹_›)
  · exact Nat.lt_succ_self _

def skipArgument (head : Char) (rest : List Char) : Option (List Char) :=
  match head with
  | 'L' => skipName rest
  | '[' => skipComponents 1 rest
  | _ => some rest

theorem skipComponents_shorter {depth : Int} {str rest : List Char}
    (skipped : skipComponents depth str = some rest) : rest.length < str.length := by
  fun_induction skipComponents depth str with
  | case1 => cases skipped
  | case2 => cases skipped
  | case3 depth behind after name =>
      cases skipped
      exact Nat.lt_succ_of_lt (skipName_shorter name)
  | case4 depth behind after name more ih =>
      exact Nat.lt_succ_of_lt ((ih skipped).trans (skipName_shorter name))
  | case5 =>
      cases skipped
      exact Nat.lt_succ_self _
  | case6 depth head behind other now more ih => exact Nat.lt_succ_of_lt (ih skipped)

theorem skipArgument_le {head : Char} {str rest : List Char}
    (skipped : skipArgument head str = some rest) : rest.length ≤ str.length := by
  unfold skipArgument at skipped
  split at skipped
  · exact (skipName_shorter skipped).le
  · exact (skipComponents_shorter skipped).le
  · cases skipped
    exact le_rfl

/-- What the two functions have of their own: the type of the counter, the variable of a word,
and what they assert about it. -/
structure Passing where
  counter : Int → Int
  var : VarType → Int → Reg
  expected : VarType → Int → Bool

def Passing.written (p : Passing) (used : Int) (types : List VarType) : List (Int × Reg) :=
  types.mapIdx fun i type => (used + i, p.var type (used + i))

/-- `for (str = signature + 1; *str != ')'; str++)`. -/
def Passing.arguments (p : Passing) (used : Int) :
    List Char → Option (List (Int × Reg) × Int × List Char)
  | [] => none
  | head :: rest =>
      if head = ')' then
        some ([], used, rest)
      else
        match argumentWords head with
        | none => none
        | some types =>
            if (types.mapIdx fun i type => p.expected type (used + i)).all id then
              match _ : skipArgument head rest with
              | none => none
              | some after =>
                  (p.arguments (p.counter (used + types.length)) after).map
                    fun (more, last, tail) => (p.written used types ++ more, last, tail)
            else
              none
termination_by str => str.length
decreasing_by exact Nat.lt_succ_of_le (skipArgument_le ‹_›)

structure Operands where
  opsType : Int → VarType
  firstArgIdx : Int
  opsTop : Int

def Operands.passing (ops : Operands) : Passing where
  counter := toShort
  var := fun type used => .var type .stack (ops.firstArgIdx + used)
  expected := fun type used => ops.opsType (ops.firstArgIdx + used) = type

theorem Operands.passing_counter (ops : Operands) : ops.passing.counter = toShort := rfl

/-- `param_idx` is an `int`. -/
def prologuePassing : Passing where
  counter := id
  var := fun type used => .var type .local used
  expected := fun _ _ => true

def receiverWords (isStatic : Bool) : List VarType :=
  if isStatic then [] else [.ref]

/-- `assert(signature[0] == '(')`. -/
def openSignature : List Char → Option (List Char)
  | '(' :: rest => some rest
  | _ => none

/-- `arg_vars` and `ops_top`. -/
structure Invocation where
  argVars : List (Int × Reg)
  opsTop : Int
  deriving DecidableEq, Repr

def preprocessForMethodInvocation (isStatic : Bool) (ops : Operands) (signature : List Char) :
    Option Invocation :=
  let receiver := receiverWords isStatic
  if -1 ≤ ops.firstArgIdx ∧ (isStatic ∨ ops.opsType ops.firstArgIdx = .ref) then
    (openSignature signature).bind fun params =>
      (ops.passing.arguments receiver.length params).map fun (argVars, used, _) => {
        argVars := ops.passing.written 0 receiver ++ argVars
        opsTop := ops.opsTop - used }
  else
    none

def returnType : Char → Option ReturnType
  | 'V' => some .noReturn
  | 'I' | 'Z' | 'S' | 'B' | 'C' => some .integer
  | 'J' => some .long
  | 'F' => some .float
  | 'D' => some .double
  | '[' | 'L' => some .reference
  | _ => none

/-- `cfg->paramVars`, `cfg->numOfParams` and `cfg->retType`. -/
structure Prologue where
  paramVars : List (Int × Reg)
  numOfParams : Int
  retType : ReturnType
  deriving DecidableEq, Repr

/-- `CSeq_create_function_prologue_code`, for a method whose `in` is `argSize`. -/
def createFunctionPrologueCode (isStatic : Bool) (argSize : Int) (signature : List Char) :
    Option Prologue := do
  let receiver := receiverWords isStatic
  let paramNo := if isStatic then argSize else argSize + 1
  let params ← openSignature signature
  let (paramVars, paramIdx, result) ← prologuePassing.arguments receiver.length params
  if paramNo = paramIdx then
    let retType ← returnType (← result.head?)
    return {
      paramVars := prologuePassing.written 0 receiver ++ paramVars
      numOfParams := paramNo
      retType := retType }
  else
    none

/-! What the loop does with each type. -/

def typeWords : FieldType → List VarType
  | .prim .float => [.float]
  | .prim .long => [.long, .ivoid]
  | .prim .double => [.double, .fvoid]
  | .prim _ => [.int]
  | .object _ => [.ref]
  | .array _ => [.ref]

def passedWords (isStatic : Bool) (d : MethodDescriptor) : List VarType :=
  receiverWords isStatic ++ d.params.flatMap typeWords

theorem length_typeWords (type : FieldType) : (typeWords type).length = type.slots := by
  cases type with
  | prim type => cases type <;> rfl
  | object name => rfl
  | array component => rfl

theorem skipComponents_encode (type : FieldType) (rest : List Char) :
    skipComponents 1 (type.encode ++ rest) = some rest := by
  induction type with
  | prim type =>
      cases type <;>
      · dsimp only [FieldType.encode, primSig, List.cons_append]
        rw [skipComponents]
        rfl
  | object name =>
      have skipped := skipName_name name rest
      dsimp only [FieldType.encode, List.cons_append]
      rw [skipComponents, if_pos rfl]
      split
      · next nothing => cases nothing.symm.trans skipped
      · next after found =>
          cases found.symm.trans skipped
          rfl
  | array component ih =>
      dsimp only [FieldType.encode, List.cons_append]
      rw [skipComponents]
      exact ih

theorem encode_cons (type : FieldType) : ∃ head tail, type.encode = head :: tail ∧
    head ≠ ')' ∧ argumentWords head = some (typeWords type) ∧
    ∀ rest, skipArgument head (tail ++ rest) = some rest := by
  cases type with
  | prim type =>
      cases type <;> exact ⟨_, [], rfl, by decide, rfl, fun rest => rfl⟩
  | object name => exact ⟨'L', _, rfl, by decide, rfl, skipName_name name⟩
  | array component => exact ⟨'[', _, rfl, by decide, rfl, skipComponents_encode component⟩

namespace Passing

variable (p : Passing) (used : Int) (rest : List Char)

theorem length_written (types : List VarType) :
    (p.written used types).length = types.length :=
  List.length_mapIdx

theorem written_append (first last : List VarType) :
    p.written used (first ++ last) =
      p.written used first ++ p.written (used + first.length) last := by
  rw [written, List.mapIdx_append]
  congr 1
  apply congrArg (List.mapIdx · last)
  funext i type
  rw [Nat.cast_add, Int.add_comm (i : Int), ← Int.add_assoc]

def Expects (types : List VarType) : Prop :=
  ∀ (i : Nat) type, types[i]? = some type → p.expected type (used + i)

theorem arguments_encode (type : FieldType) :
    p.arguments used (type.encode ++ rest) =
      if ((typeWords type).mapIdx fun i word => p.expected word (used + i)).all id then
        (p.arguments (p.counter (used + (typeWords type).length)) rest).map
          fun (more, last, tail) => (p.written used (typeWords type) ++ more, last, tail)
      else
        none := by
  obtain ⟨head, tail, encoded, inside, words, skipped⟩ := encode_cons type
  rw [encoded, List.cons_append, arguments, if_neg inside, words]
  dsimp only
  apply if_congr Iff.rfl ?_ rfl
  split
  · next nothing => cases nothing.symm.trans (skipped rest)
  · next after found =>
      cases found.symm.trans (skipped rest)
      rfl

theorem expects_iff (types : List VarType) :
    ((types.mapIdx fun i type => p.expected type (used + i)).all id) = true ↔
      p.Expects used types := by
  rw [List.all_eq_true]
  constructor
  · intro all i type there
    obtain ⟨bound, same⟩ := List.getElem?_eq_some_iff.mp there
    apply all
    rw [List.mem_mapIdx]
    exact ⟨i, bound, by rw [same]⟩
  · intro expects checked mem
    obtain ⟨i, bound, rfl⟩ := List.mem_mapIdx.mp mem
    exact expects i _ (List.getElem?_eq_getElem bound)

theorem Expects.append {p : Passing} {used : Int} {first last : List VarType}
    (expects : p.Expects used (first ++ last)) :
    p.Expects used first ∧ p.Expects (used + first.length) last := by
  constructor
  · intro i type there
    have bound := (List.getElem?_eq_some_iff.mp there).1
    exact expects i type ((List.getElem?_append_left bound).trans there)
  · intro i type there
    have later : (first ++ last)[first.length + i]? = some type := by
      rw [List.getElem?_append_right (Nat.le_add_right _ _), Nat.add_sub_cancel_left]
      exact there
    have passed := expects _ _ later
    rwa [Nat.cast_add, ← Int.add_assoc] at passed

theorem arguments_close : p.arguments used (')' :: rest) = some ([], used, rest) := by
  rw [arguments, if_pos rfl]

theorem arguments_params (params : List FieldType)
    (fits : ∀ n : Nat, n ≤ (params.flatMap typeWords).length → p.counter (used + n) = used + n)
    (expects : p.Expects used (params.flatMap typeWords)) :
    p.arguments used (params.flatMap FieldType.encode ++ ')' :: rest) =
      some (p.written used (params.flatMap typeWords),
        used + (params.flatMap typeWords).length, rest) := by
  induction params generalizing used with
  | nil => exact (p.arguments_close used rest).trans (by rw [List.flatMap_nil]; simp [written])
  | cons type params ih =>
      rw [List.flatMap_cons] at expects fits
      obtain ⟨now, later⟩ := expects.append
      rw [List.length_append] at fits
      have counted := fits (typeWords type).length (Nat.le_add_right _ _)
      have more : ∀ n : Nat, n ≤ (params.flatMap typeWords).length →
          p.counter (used + (typeWords type).length + n) =
            used + (typeWords type).length + n := by
        intro n small
        have fit := fits ((typeWords type).length + n) (by omega)
        rwa [Nat.cast_add, ← Int.add_assoc] at fit
      rw [List.flatMap_cons, List.append_assoc, arguments_encode,
        if_pos ((p.expects_iff used _).mpr now), counted, ih _ more later, List.flatMap_cons,
        written_append, List.length_append, Nat.cast_add, Int.add_assoc]
      rfl

theorem arguments_length {params : List FieldType}
    (wraps : ∀ n m, p.counter (p.counter n + m) = p.counter (n + m))
    {written : List (Int × Reg)} {last : Int} {tail : List Char}
    (done : p.arguments (p.counter used) (params.flatMap FieldType.encode ++ ')' :: rest) =
      some (written, last, tail)) :
    written.length = (params.flatMap typeWords).length ∧
      last = p.counter (used + (params.flatMap typeWords).length) ∧ tail = rest := by
  induction params generalizing used written with
  | nil =>
      cases (p.arguments_close (p.counter used) rest).symm.trans done
      refine ⟨rfl, ?_, rfl⟩
      rw [List.flatMap_nil, List.length_nil, Nat.cast_zero, Int.add_zero]
  | cons type params ih =>
      rw [List.flatMap_cons, List.append_assoc, arguments_encode] at done
      split at done
      · obtain ⟨⟨more, final, after⟩, found, same⟩ := Option.map_eq_some_iff.mp done
        cases same
        rw [wraps] at found
        obtain ⟨length, counted, rfl⟩ := ih _ found
        rw [List.flatMap_cons, List.length_append, length_written, List.length_append, length,
          Nat.cast_add, ← Int.add_assoc]
        exact ⟨rfl, counted, rfl⟩
      · cases done

end Passing

/-! The readers together. -/

structure ArgumentSite (isStatic : Bool) (d : MethodDescriptor) extends Operands where
  first : -1 ≤ firstArgIdx
  holds : ∀ (i : Nat) type, (passedWords isStatic d)[i]? = some type →
    opsType (firstArgIdx + i) = type

/-- Each reader comes from the type to the rest, and gives it as many words. -/
def SameExtent (type : FieldType) : Prop :=
  ∀ rest, ∃ (words : List VarType) (c : SigClass) (head : Char) (tail : List Char),
    sizeofSigItem false (type.encode ++ rest) = some ((words.length : Int), rest) ∧
    classFromSig (type.encode ++ rest) = some (c, rest) ∧ c.words = words.length ∧
    type.encode ++ rest = head :: tail ∧ argumentWords head = some words ∧
      skipArgument head tail = some rest

/-- The readers agree about each argument, and the caller and the callee about the place and
the type of each word and about the number of words. -/
structure Agree (isStatic : Bool) (d : MethodDescriptor) (ops : Operands) : Prop where
  extents : ∀ type ∈ d.params, SameExtent type
  words : ∃ counts caller callee,
    countInsAndOuts d.encode = some counts ∧
    preprocessForMethodInvocation isStatic ops d.encode = some caller ∧
    createFunctionPrologueCode isStatic counts.ins d.encode = some callee ∧
    caller.argVars = (passedWords isStatic d).mapIdx
      (fun i type => ((i : Int), Reg.var type .stack (ops.firstArgIdx + i))) ∧
    callee.paramVars = (passedWords isStatic d).mapIdx
      (fun i type => ((i : Int), Reg.var type .local i)) ∧
    caller.opsTop = ops.opsTop - (passedWords isStatic d).length ∧
    callee.numOfParams = (passedWords isStatic d).length

theorem sameExtent (type : FieldType) : SameExtent type := by
  intro rest
  obtain ⟨head, tail, encoded, _, words, skipped⟩ := encode_cons type
  have read := sizeofSigItem_encode type false rest
  rw [← length_typeWords] at read
  refine ⟨typeWords type, type.toClass, head, tail ++ rest, read, classFromSig_encode type rest,
    ?_, ?_, words, skipped rest⟩
  · rw [type.words_toClass, length_typeWords]
  · rw [encoded, List.cons_append]

section

variable {isStatic : Bool} {d : MethodDescriptor}

theorem length_flatMap_typeWords (params : List FieldType) :
    (params.flatMap typeWords).length = (params.map FieldType.slots).sum := by
  rw [List.length_flatMap]
  apply congrArg
  apply List.map_congr_left
  exact fun type _ => length_typeWords type

theorem openSignature_encode (d : MethodDescriptor) : openSignature d.encode =
    some (d.params.flatMap FieldType.encode ++ ')' :: encodeResult d.result) := rfl

theorem length_receiverWords (isStatic : Bool) : (receiverWords isStatic).length ≤ 1 := by
  cases isStatic <;> decide

theorem length_passedWords :
    (passedWords isStatic d).length = (receiverWords isStatic).length + d.slots := by
  rw [passedWords, List.length_append, length_flatMap_typeWords]
  rfl

theorem result_head (result : Option FieldType) : ∃ head type,
    (encodeResult result).head? = some head ∧ returnType head = some type := by
  cases result with
  | none => exact ⟨'V', _, rfl, rfl⟩
  | some type =>
      cases type with
      | prim type => cases type <;> exact ⟨_, _, rfl, rfl⟩
      | object name => exact ⟨'L', _, rfl, rfl⟩
      | array component => exact ⟨'[', _, rfl, rfl⟩

theorem opsTop_of_preprocess {ops : Operands} {caller : Invocation}
    (done : preprocessForMethodInvocation isStatic ops d.encode = some caller) :
    caller.opsTop = ops.opsTop - toShort (passedWords isStatic d).length := by
  rw [preprocessForMethodInvocation, openSignature_encode] at done
  dsimp only [Option.bind_some] at done
  split at done
  · obtain ⟨⟨written, used, tail⟩, found, rfl⟩ := Option.map_eq_some_iff.mp done
    have start : ops.passing.counter (receiverWords isStatic).length =
        (receiverWords isStatic).length := by
      have few := length_receiverWords isStatic
      rw [ops.passing_counter]
      exact toShort_of_fits (by omega) (by omega)
    have counted := (ops.passing.arguments_length (receiverWords isStatic).length
      (encodeResult d.result) toShort_wraps (by rw [start]; exact found)).2.1
    rw [counted, ops.passing_counter, length_passedWords, MethodDescriptor.slots,
      length_flatMap_typeWords, Nat.cast_add]
  · cases done

theorem preprocess_encode (site : ArgumentSite isStatic d)
    (fits : (passedWords isStatic d).length < 2 ^ 15) :
    preprocessForMethodInvocation isStatic site.toOperands d.encode = some {
      argVars := site.passing.written 0 (passedWords isStatic d)
      opsTop := site.opsTop - (passedWords isStatic d).length } := by
  have expects : site.passing.Expects 0 (passedWords isStatic d) := by
    intro i type there
    have same := site.holds i type there
    rw [Int.zero_add]
    exact decide_eq_true same
  obtain ⟨receiver, later⟩ := Passing.Expects.append expects
  have checked : isStatic ∨ site.opsType site.firstArgIdx = .ref := by
    cases isStatic with
    | true => exact .inl rfl
    | false =>
        have there := site.holds 0 .ref rfl
        rw [Nat.cast_zero, Int.add_zero] at there
        exact .inr there
  rw [passedWords, List.length_append] at fits
  have run := site.passing.arguments_params _ (encodeResult d.result) d.params
    (fun n small => toShort_of_fits (by omega) (by omega)) later
  rw [Int.zero_add] at run
  rw [preprocessForMethodInvocation, openSignature_encode]
  dsimp only [Option.bind_some]
  rw [if_pos ⟨site.first, checked⟩, run, passedWords, Passing.written_append, Int.zero_add,
    List.length_append, Nat.cast_add]
  rfl

theorem prologue_encode (isStatic : Bool) (d : MethodDescriptor) :
    ∃ retType, createFunctionPrologueCode isStatic d.slots d.encode = some {
      paramVars := prologuePassing.written 0 (passedWords isStatic d)
      numOfParams := (passedWords isStatic d).length
      retType := retType } := by
  obtain ⟨head, retType, starts, known⟩ := result_head d.result
  have run := prologuePassing.arguments_params (receiverWords isStatic).length
    (encodeResult d.result) d.params (fun n small => rfl) (fun i type there => rfl)
  have number : (if isStatic then (d.slots : Int) else d.slots + 1) =
      (receiverWords isStatic).length + (d.params.flatMap typeWords).length := by
    rw [length_flatMap_typeWords]
    cases isStatic with
    | true => exact (Int.zero_add _).symm
    | false => exact Int.add_comm _ _
  refine ⟨retType, ?_⟩
  rw [createFunctionPrologueCode, openSignature_encode]
  dsimp only [Option.bind_eq_bind, Option.bind_some]
  rw [run]
  dsimp only [Option.bind_some]
  rw [if_pos number, number, starts]
  dsimp only [Option.bind_some]
  rw [known, passedWords, Passing.written_append, Int.zero_add, List.length_append, Nat.cast_add]
  rfl

theorem Agree.fits {ops : Operands} (agree : Agree isStatic d ops) :
    (passedWords isStatic d).length < 2 ^ 15 := by
  obtain ⟨counts, caller, callee, _, called, _, _, _, top, _⟩ := agree.words
  have counted := opsTop_of_preprocess called
  have small := toShort_lt (passedWords isStatic d).length
  omega

theorem Agree.of_fits (site : ArgumentSite isStatic d)
    (fits : (passedWords isStatic d).length < 2 ^ 15) : Agree isStatic d site.toOperands := by
  obtain ⟨outs, outtype, counts⟩ := countInsAndOuts_encode d
  have ins : toShort d.slots = d.slots := by
    rw [length_passedWords] at fits
    exact toShort_of_fits (by omega) (by omega)
  rw [ins] at counts
  obtain ⟨retType, callee⟩ := prologue_encode isStatic d
  refine ⟨fun type _ => sameExtent type, _, _, _, counts, preprocess_encode site fits, callee,
    ?_, ?_, rfl, rfl⟩
  · dsimp only [Passing.written, Operands.passing]
    simp only [Int.zero_add]
  · dsimp only [Passing.written, prologuePassing]
    simp only [Int.zero_add]

/-- All readers agree about a method exactly if its words, with the receiver, fit a `short`. -/
theorem descriptors_agree_iff (site : ArgumentSite isStatic d) :
    Agree isStatic d site.toOperands ↔ (passedWords isStatic d).length < 2 ^ 15 :=
  ⟨Agree.fits, Agree.of_fits site⟩

end

private def ints (count : Nat) : MethodDescriptor := ⟨List.replicate count (.prim .int), none⟩

private def intSite (count : Nat) : ArgumentSite true (ints count) where
  opsType := fun i => (passedWords true (ints count))[i.toNat]?.getD .int
  firstArgIdx := 0
  opsTop := count
  first := by decide
  holds := by
    intro i type there
    rw [Int.zero_add, Int.toNat_natCast, there]
    rfl

/-- 32768 arguments are one too many. -/
theorem long_descriptor_disagrees :
    ¬ ∀ isStatic d (site : ArgumentSite isStatic d), Agree isStatic d site.toOperands := by
  intro claim
  have fits := (claim true (ints (2 ^ 15)) (intSite (2 ^ 15))).fits
  have slots : (ints (2 ^ 15)).slots = 2 ^ 15 := by
    rw [MethodDescriptor.slots, ints, List.map_replicate, List.sum_replicate_nat]
    rfl
  rw [length_passedWords, slots] at fits
  exact absurd fits (Nat.not_lt.mpr (Nat.le_add_left _ _))

end LaTTe.Sequences
