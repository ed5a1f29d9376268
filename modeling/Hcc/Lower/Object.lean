import Hcc.Lower.Types

namespace Hcc

open Stateful

inductive LValue
  | lLocal   (temp : Temp) (type : CType)
  | lAddress (addr : Operand) (type : CType)

def lValueType : LValue → CType
  | .lLocal _ ty   => ty
  | .lAddress _ ty => ty

section Immediates

def littleEndianValue (shift : Int) : List Int → Int
  | []           => 0
  | byte :: rest => byte * pow2 shift + littleEndianValue (shift + 8) rest

def positiveMod (value modulus : Int) : Int :=
  let result := value % modulus
  if result < 0 then result + modulus else result

def immediateScalarValue : Operand → Option Int
  | .imm value      => some value
  | .immBytes bytes => some (littleEndianValue 0 bytes)
  | _               => none

def coerceWordImmediateScalar (signed : Bool) : Operand → Option Operand
  | .imm value => if signed || value ≥ 0 then some (.imm value) else none
  | _          => none

def coerceImmediateScalar (signed : Bool) (size : Int) (op : Operand) : Option Operand :=
  if size ≥ 4 then coerceWordImmediateScalar signed op
  else match immediateScalarValue op with
    | none       => none
    | some value =>
      let modulus := pow2 (size * 8)
      let masked := positiveMod value modulus
      let signBit := pow2 (size * 8 - 1)
      some (.imm (if signed && masked ≥ signBit then masked - modulus else masked))

end Immediates

section Scalars

def coerceBool (op : Operand) : ValueM (List Instr × Operand) :=
  match immediateScalarValue op with
  | some value => return ([], .imm (if value = 0 then 0 else 1))
  | none       => do
    let out ← freshTemp
    return ([.bin out .ne op (.imm 0)], .temp out)

def maskScalar (size : Int) (op : Operand) : ValueM (List Instr × Operand) := do
  let out ← freshTemp
  return ([.zext out size op], .temp out)

def signExtendScalar (size : Int) (op : Operand) : ValueM (List Instr × Operand) := do
  let out ← freshTemp
  return ([.sext out size op], .temp out)

def scaledIndex (index : Operand) (size : Int) : ValueM (List Instr × Operand) :=
  if size = 1 then return ([], index)
  else do
    let scaled ← freshTemp
    return ([.bin scaled .mul index (.imm size)], .temp scaled)

def scaledOffset (offset : Operand) (size : Int) : ValueM (List Instr × Operand) :=
  if size = 1 then return ([], offset)
  else match offset with
    | .imm value => return ([], .imm (value * size))
    | offset     => do
      let scaled ← freshTemp
      return ([.bin scaled .mul offset (.imm size)], .temp scaled)

def offsetAddress (base : Operand) (offset : Int) : ValueM (List Instr × Operand) :=
  if offset = 0 then return ([], base)
  else do
    let out ← freshTemp
    return ([.bin out .add base (.imm offset)], .temp out)

end Scalars

section Objects

def accessWidth (word remaining : Int) : Int :=
  if remaining ≥ word then word else if remaining ≥ 4 then 4 else 1

def unsignedLoadAt (width : Int) (dst : Temp) (addr : Operand) : Instr :=
  if width = 8 then .load64 dst addr else if width = 4 then .load32 dst addr else .load8 dst addr

def unsignedStoreAt (width : Int) (addr value : Operand) : Instr :=
  if width = 8 then .store64 addr value
  else if width = 4 then .store32 addr value
  else .store8 addr value

-- Each step accesses at least one byte.
def zeroObjectBytes (dst : Operand) (offset : Int) : (steps : Nat) → (remaining : Int) → ValueM (List Instr)
  | 0,         _         => return []
  | steps + 1, remaining =>
    if remaining ≤ 0 then return []
    else do
      let word ← targetWordSize
      let width := accessWidth word remaining
      let (dstInstrs, dstAddr) ← offsetAddress dst offset
      let rest ← zeroObjectBytes dst (offset + width) steps (remaining - width)
      return dstInstrs ++ [unsignedStoreAt width dstAddr (.imm 0)] ++ rest

def copyObjectBytes (dst src : Operand) (offset : Int) :
    (steps : Nat) → (remaining : Int) → ValueM (List Instr)
  | 0,         _         => return []
  | steps + 1, remaining =>
    if remaining ≤ 0 then return []
    else do
      let word ← targetWordSize
      let width := accessWidth word remaining
      let (dstInstrs, dstAddr) ← offsetAddress dst offset
      let (srcInstrs, srcAddr) ← offsetAddress src offset
      let val ← freshTemp
      let rest ← copyObjectBytes dst src (offset + width) steps (remaining - width)
      return dstInstrs ++ srcInstrs ++
        [unsignedLoadAt width val srcAddr, unsignedStoreAt width dstAddr (.temp val)] ++ rest

end Objects

namespace Typing

variable (t : Typing)

def coerceScalar (ty : CType) (op : Operand) : ValueM (List Instr × Operand) :=
  match ty with
  | .bool => coerceBool op
  | ty    => do
    if !(← isIntegerTypeM ty) then return ([], op)
    else
      let size ← t.typeSize ty
      if size ≥ 8 then return ([], op)
      else match coerceImmediateScalar (isSignedIntegerType ty) size op with
        | some coerced => return ([], coerced)
        | none         =>
          if isSignedIntegerType ty then signExtendScalar size op else maskScalar size op

def coerceMaybeScalar (mty : Option CType) (op : Operand) : ValueM (List Instr × Operand) :=
  match mty with
  | some ty => t.coerceScalar ty op
  | none    => return ([], op)

def loadInstr (out : Temp) (ty : CType) (addr : Operand) : ValueM Instr := do
  let size ← t.typeSize ty
  let signed := isSignedIntegerType ty
  return if size ≤ 1 then (if signed then .loadS8 out addr else .load8 out addr)
    else if size ≤ 2 then (if signed then .loadS16 out addr else .load16 out addr)
    else if size ≤ 4 then (if signed then .loadS32 out addr else .load32 out addr)
    else .load64 out addr

def storeInstr (ty : CType) (addr value : Operand) : ValueM Instr := do
  let size ← t.typeSize ty
  return if size ≤ 1 then .store8 addr value
    else if size ≤ 2 then .store16 addr value
    else if size ≤ 4 then .store32 addr value
    else .store64 addr value

def copyObject (dst src : Operand) (ty : CType) : ValueM (List Instr) := do
  let size ← t.typeSize ty
  copyObjectBytes dst src 0 size.toNat size

def zeroObject (dst : Operand) (ty : CType) : ValueM (List Instr) := do
  let size ← t.typeSize ty
  zeroObjectBytes dst 0 size.toNat size

-- An aggregate is read as its address.
def readLValue (lvalue : LValue) : ValueM (List Instr × Operand) :=
  match lvalue with
  | .lLocal temp ty             => t.coerceScalar ty (.temp temp)
  | .lAddress addr (.array ..)  => return ([], addr)
  | .lAddress addr ty           => do
    if ← isAggregateTypeM ty then return ([], addr)
    else
      let out ← freshTemp
      let load ← t.loadInstr out ty addr
      return ([load], .temp out)

def writeLValue (lvalue : LValue) (value : Operand) : ValueM (List Instr) :=
  match lvalue with
  | .lLocal temp ty   => do
    if ← isAggregateTypeM ty then t.copyObject (.temp temp) value ty
    else return [.copy temp value]
  | .lAddress addr ty => do
    if ← isAggregateTypeM ty then t.copyObject addr value ty
    else return [← t.storeInstr ty addr value]

end Typing
end Hcc
