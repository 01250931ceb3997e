import Mathlib.Data.BitVec
import Mathlib.Data.List.Basic
import Mathlib.Logic.Function.Basic

namespace LaTTe.Classes.ConstantPool

/-! The constant pool of a class file, how it is read and how it is checked. -/

structure ClassFile where
  memory : Nat → BitVec 8
  buf : Nat

namespace ClassFile

def skip (fp : ClassFile) (count : Nat) : ClassFile :=
  { fp with buf := fp.buf + count }

def readu1 (fp : ClassFile) : BitVec 8 × ClassFile :=
  (fp.memory fp.buf, fp.skip 1)

def readu2 (fp : ClassFile) : BitVec 16 × ClassFile :=
  (fp.memory fp.buf ++ fp.memory (fp.buf + 1), fp.skip 2)

def readu4 (fp : ClassFile) : BitVec 32 × ClassFile :=
  (fp.memory fp.buf ++ fp.memory (fp.buf + 1) ++ fp.memory (fp.buf + 2) ++
    fp.memory (fp.buf + 3), fp.skip 4)

def text (fp : ClassFile) (len : Nat) : List (BitVec 8) :=
  (List.range len).map fun k => fp.memory (fp.buf + k)

end ClassFile

/-- The tags of the slots.  `CONSTANT_Error` is the same number as `CONSTANT_Unknown`. -/
inductive ConstantTag where
  | unknown
  | utf8
  | integer
  | float
  | long
  | double
  | className
  | string
  | fieldref
  | methodref
  | interfaceMethodref
  | nameAndType
  | resolvedString
  | resolvedClass
  deriving DecidableEq, Repr

inductive Constant where
  | utf8 (text : List (BitVec 8))
  | className (name : BitVec 16)
  | string (name : BitVec 16)
  | fieldref (ci ni : BitVec 16)
  | methodref (ci ni : BitVec 16)
  | interfaceMethodref (ci ni : BitVec 16)
  | nameAndType (nin nis : BitVec 16)
  | integer (d4 : BitVec 32)
  | float (d4 : BitVec 32)
  | long (d4 d4b : BitVec 32)
  | double (d4 d4b : BitVec 32)
  deriving DecidableEq, Repr

namespace Constant

def tag : Constant → ConstantTag
  | utf8 _ => .utf8
  | className _ => .className
  | string _ => .string
  | fieldref _ _ => .fieldref
  | methodref _ _ => .methodref
  | interfaceMethodref _ _ => .interfaceMethodref
  | nameAndType _ _ => .nameAndType
  | integer _ => .integer
  | float _ => .float
  | long _ _ => .long
  | double _ _ => .double

def second : Constant → Option (BitVec 32)
  | long _ d4b => some d4b
  | double _ d4b => some d4b
  | _ => none

def slots (constant : Constant) : Nat :=
  if constant.second.isSome then 2 else 1

/-- What is kept of a constant, where `makeUtf8Const` is the address of a string. -/
def word (makeUtf8Const : List (BitVec 8) → BitVec 32) : Constant → BitVec 32
  | utf8 text => makeUtf8Const text
  | className d2 => d2.setWidth 32
  | string d2 => d2.setWidth 32
  | fieldref d2 d2b => d2b ++ d2
  | methodref d2 d2b => d2b ++ d2
  | interfaceMethodref d2 d2b => d2b ++ d2
  | nameAndType d2 d2b => d2b ++ d2
  | integer d4 => d4
  | float d4 => d4
  | long d4 _ => d4
  | double d4 _ => d4

def name : Constant → Option (BitVec 16)
  | className name => some name
  | string name => some name
  | _ => none

def references : Constant → List (BitVec 16 × ConstantTag)
  | className name => [(name, .utf8)]
  | string name => [(name, .utf8)]
  | fieldref ci ni => [(ci, .className), (ni, .nameAndType)]
  | methodref ci ni => [(ci, .className), (ni, .nameAndType)]
  | interfaceMethodref ci ni => [(ci, .className), (ni, .nameAndType)]
  | nameAndType nin nis => [(nin, .utf8), (nis, .utf8)]
  | _ => []

end Constant

def readConstant (fp : ClassFile) : Option (Constant × ClassFile) :=
  let (type, fp) := fp.readu1
  match type.toNat with
  | 1 =>
      let (len, fp) := fp.readu2
      some (.utf8 (fp.text len.toNat), fp.skip len.toNat)
  | 7 =>
      let (d2, fp) := fp.readu2
      some (.className d2, fp)
  | 8 =>
      let (d2, fp) := fp.readu2
      some (.string d2, fp)
  | 9 =>
      let (d2, fp) := fp.readu2
      let (d2b, fp) := fp.readu2
      some (.fieldref d2 d2b, fp)
  | 10 =>
      let (d2, fp) := fp.readu2
      let (d2b, fp) := fp.readu2
      some (.methodref d2 d2b, fp)
  | 11 =>
      let (d2, fp) := fp.readu2
      let (d2b, fp) := fp.readu2
      some (.interfaceMethodref d2 d2b, fp)
  | 12 =>
      let (d2, fp) := fp.readu2
      let (d2b, fp) := fp.readu2
      some (.nameAndType d2 d2b, fp)
  | 3 =>
      let (d4, fp) := fp.readu4
      some (.integer d4, fp)
  | 4 =>
      let (d4, fp) := fp.readu4
      some (.float d4, fp)
  | 5 =>
      let (d4, fp) := fp.readu4
      let (d4b, fp) := fp.readu4
      some (.long d4 d4b, fp)
  | 6 =>
      let (d4, fp) := fp.readu4
      let (d4b, fp) := fp.readu4
      some (.double d4 d4b, fp)
  | _ => none

inductive PoolFailure where
  | classFormatError
  | outside
  deriving DecidableEq, Repr

structure Constants where
  size : Nat
  tags : Nat → ConstantTag
  data : Nat → BitVec 32

namespace Constants

def tag (info : Constants) (i : Nat) : Except PoolFailure ConstantTag :=
  if i < info.size then .ok (info.tags i) else .error .outside

def slot (info : Constants) (i : Nat) : Except PoolFailure (BitVec 32) :=
  if i < info.size then .ok (info.data i) else .error .outside

def setTag (info : Constants) (i : Nat) (tag : ConstantTag) : Except PoolFailure Constants :=
  if i < info.size then .ok { info with tags := Function.update info.tags i tag }
  else .error .outside

def setSlot (info : Constants) (i : Nat) (word : BitVec 32) : Except PoolFailure Constants :=
  if i < info.size then .ok { info with data := Function.update info.data i word }
  else .error .outside

end Constants

section

variable (makeUtf8Const : List (BitVec 8) → BitVec 32)

def store (info : Constants) (i : Nat) (constant : Constant) : Except PoolFailure Constants := do
  let info ← info.setTag i constant.tag
  let info ← info.setSlot i (constant.word makeUtf8Const)
  match constant.second with
  | none => .ok info
  | some d4b =>
      let info ← info.setSlot (i + 1) d4b
      info.setTag (i + 1) .unknown

def readConstants : Nat → Constants → ClassFile → Nat → Except PoolFailure (Constants × ClassFile)
  | 0, info, fp, _ => .ok (info, fp)
  | fuel + 1, info, fp, i =>
      if i < info.size then
        match readConstant fp with
        | none => .error .classFormatError
        | some (constant, fp) => do
            let info ← store makeUtf8Const info i constant
            readConstants fuel info fp (i + constant.slots)
      else .ok (info, fp)

def resolveName (info : Constants) (i : Nat) : Except PoolFailure Constants := do
  let tag ← info.tag i
  if tag = .className ∨ tag = .string then
    let word ← info.slot i
    let j := (word.setWidth 16).toNat
    let other ← info.tag j
    if other = .utf8 then
      let target ← info.slot j
      info.setSlot i target
    else info.setTag i .unknown
  else .ok info

def readConstantPool (tags : Nat → ConstantTag) (data : Nat → BitVec 32) (fp : ClassFile) :
    Except PoolFailure (Constants × ClassFile) := do
  let (size, fp) := fp.readu2
  let info : Constants := ⟨size.toNat, tags, data⟩
  let info ← info.setSlot 0 0
  let info ← info.setTag 0 .unknown
  let (info, fp) ← readConstants makeUtf8Const info.size info fp 1
  let info ← (List.range' 1 (info.size - 1)).foldlM resolveName info
  .ok (info, fp)

end

/-! The check of the pool in `verify2`. -/

namespace Constants

def constTag (info : Constants) (idx : BitVec 16) : ConstantTag :=
  if 0 < idx.toNat ∧ idx.toNat < info.size then info.tags idx.toNat else .unknown

def low (info : Constants) (i : Nat) : BitVec 16 :=
  (info.data i).setWidth 16

def high (info : Constants) (i : Nat) : BitVec 16 :=
  (info.data i >>> 16).setWidth 16

/-- The loop over the constants, which returns `error`. -/
def verifyFrom (info : Constants) : Nat → Nat → Bool → Bool
  | 0, _, error => error
  | fuel + 1, i, error =>
      if i < info.size then
        match info.tags i with
        | .utf8 | .integer | .float | .resolvedString | .resolvedClass =>
            verifyFrom info fuel (i + 1) error
        | .long | .double => verifyFrom info fuel (i + 1 + 1) error
        | .className | .string => verifyFrom info fuel (i + 1) error
        | .fieldref | .methodref | .interfaceMethodref =>
            let tag := info.constTag (info.low i)
            let error := error || (tag != .className && tag != .resolvedClass)
            let error := error || info.constTag (info.high i) != .nameAndType
            verifyFrom info fuel (i + 1) error
        | .nameAndType =>
            let error := error || info.constTag (info.low i) != .utf8
            let error := error || info.constTag (info.high i) != .utf8
            verifyFrom info fuel (i + 1) error
        | .unknown => verifyFrom info fuel (i + 1) true
      else error

/-- The third part of `verify2`, which throws a `ClassFormatError` if there is an error. -/
def verify2 (info : Constants) : Except PoolFailure Unit :=
  if info.verifyFrom info.size 1 false = true then .error .classFormatError else .ok ()

end Constants

end LaTTe.Classes.ConstantPool
