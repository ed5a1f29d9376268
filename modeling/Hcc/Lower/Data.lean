import Hcc.Lower.Types

namespace Hcc

open Stateful

def zeroData (n : Int) : List DataValue :=
  .replicate n.toNat (.byte 0)

def dataSizeTarget : List DataValue → ValueM Int
  | []                 => return 0
  | .byte _ :: rest    => do
    let n ← dataSizeTarget rest
    return n + 1
  | .address _ :: rest => do
    let word ← targetWordSize
    let n ← dataSizeTarget rest
    return n + word

-- An address that does not fit is replaced by zeros.
def takeDataTarget (size : Int) (values : List DataValue) : ValueM (List DataValue) :=
  if size ≤ 0 then return []
  else match values with
    | []                     => return []
    | .byte byte :: rest     => do
      let tailValues ← takeDataTarget (size - 1) rest
      return .byte byte :: tailValues
    | .address label :: rest => do
      let word ← targetWordSize
      if size ≥ word then
        let tailValues ← takeDataTarget (size - word) rest
        return .address label :: tailValues
      else return zeroData size

def padDataTarget (size : Int) (values : List DataValue) : ValueM (List DataValue) := do
  let used ← dataSizeTarget values
  if used ≥ size then takeDataTarget size values
  else return values ++ zeroData (size - used)

def singleExprList : List Expr → Bool
  | [_] => true
  | _   => false

-- Functions and objects have separate labels.
def globalAddressData (name : String) : ValueM (List DataValue) := do
  let function ← lookupFunction name
  return [.address (if function then "FUNCTION_" ++ name else name)]

def staticAddressInitializer : Expr → ValueM Bool
  | .cast _ value         => staticAddressInitializer value
  | .string _             => return true
  | .unary "&" (.var _)   => return true
  | .var name             => do
    match ← lookupConstant name with
    | some _ => return false
    | none   => return (builtinConstant name).isNone
  | _                     => return false

namespace Typing

variable (t : Typing)

def zeroDataForType (ty : CType) : ValueM (List DataValue) := do
  let size ← t.typeSize ty
  return zeroData size

section Scalars

def constantData (ty : CType) (value : Constant) : ValueM (List DataValue) :=
  if isFloatingType ty && !constantTrue value then t.zeroDataForType ty
  else do
    let converted ← t.castConstant ty value
    return converted.bytes.map .byte

def scalarData (ty : CType) (value : Int) : ValueM (List DataValue) :=
  t.constantData ty (constantInt 4 value)

def scalarConstantData (ty : CType) (expr : Expr) : ValueM (List DataValue) := do
  let value ← t.constExprTyped true expr
  t.constantData ty value

def scalarFloatData (ty : CType) (text : List Char) : ValueM (List DataValue) := do
  let size ← t.typeSize ty
  return (floatLiteralBytes size.toNat text).map .byte

end Scalars

def stringDataSize (count : Option Expr) (text : List Char) : ValueM Int :=
  match count with
  | none       => return (stringBytes text).length
  | some bound => t.arrayBoundSize (some bound)

def globalStringData (ty : CType) (text : List Char) : ValueM (List DataValue) :=
  match ty with
  | .array .char count => do
    let size ← t.stringDataSize count text
    padDataTarget size <| (stringBytes text).map .byte
  | ty                 =>
    if isPointerType ty then do
      let dataLabel ← freshDataLabel
      addDataItem ⟨dataLabel, (stringBytes text).map .byte⟩
      return [.address dataLabel]
    else t.scalarConstantData ty (.string text)

def globalAddressExprData (ty : CType) (value : Expr) : ValueM (List DataValue) :=
  match value with
  | .var name => globalAddressData name
  | value     => t.scalarConstantData ty (.unary "&" value)

def globalVarData (ty : CType) (name : String) : ValueM (List DataValue) := do
  match ← lookupConstant name with
  | some value => t.scalarData ty value
  | none       =>
    match builtinConstant name with
    | some value => t.scalarData ty value
    | none       => globalAddressData name

def unionSizeFromFields : List Field → ValueM Int
  | []               => return 0
  | .mk ty _ :: rest => do
    let size ← t.typeSize ty
    let tailSize ← unionSizeFromFields rest
    return max size tailSize

def zeroUnionData (fields : List Field) : ValueM (List DataValue) := do
  let size ← t.unionSizeFromFields fields
  return zeroData size

section Aggregates

variable (globalDataValue : CType → Option Expr → ValueM (List DataValue))

def globalArrayData (inner : CType) : List Expr → ValueM (List DataValue)
  | []           => return []
  | expr :: rest => do
    let item ← globalDataValue inner (some expr)
    let elemSize ← t.typeSize inner
    let tailItems ← globalArrayData inner rest
    let padded ← padDataTarget elemSize item
    return padded ++ tailItems

def structFields (offset : Int) : List Field → List Expr → ValueM (List DataValue × Int)
  | [],                    _      => return ([], offset)
  | .mk fieldTy _ :: rest, values => do
    let align ← t.typeAlign fieldTy
    let aligned := alignUp offset align
    let fieldSize ← t.typeSize fieldTy
    let fieldData ← globalDataValue fieldTy values.head?
    let paddedField ← padDataTarget fieldSize fieldData
    let (restData, endOffset) ← structFields (aligned + fieldSize) rest values.tail
    return (zeroData (aligned - offset) ++ paddedField ++ restData, endOffset)

def globalStructData (fields : List Field) (exprs : List Expr) : ValueM (List DataValue) := do
  let (values, used) ← t.structFields globalDataValue 0 fields exprs
  padDataTarget used values

def globalUnionData (fields : List Field) (exprs : List Expr) : ValueM (List DataValue) :=
  match fields, exprs with
  | .mk fieldTy _ :: _, expr :: _ => do
    let item ← globalDataValue fieldTy (some expr)
    let size ← t.unionSizeFromFields fields
    padDataTarget size item
  | fields,             _         => t.zeroUnionData fields

def globalArrayInitData (inner : CType) (count : Option Expr) (exprs : List Expr) :
    ValueM (List DataValue) := do
  let items ← t.globalArrayData globalDataValue inner exprs
  match count with
  | none       => return items
  | some bound =>
    let n ← t.arrayBoundSize (some bound)
    let elemSize ← t.typeSize inner
    let size ← checkedArraySize elemSize n
    padDataTarget size items

def globalAggregateInitData (ty : CType) (exprs : List Expr) : ValueM (List DataValue) := do
  match ← aggregateFields ty with
  | some (false, fields) => t.globalStructData globalDataValue fields exprs
  | some (true, fields)  => t.globalUnionData globalDataValue fields exprs
  | none                 => t.zeroDataForType ty

def globalInitListData (ty : CType) (exprs : List Expr) : ValueM (List DataValue) :=
  if !isAggregateType ty && singleExprList exprs then
    match exprs with
    | expr :: _ => globalDataValue ty (some expr)
    | []        => t.zeroDataForType ty
  else match ty with
    | .array inner count => t.globalArrayInitData globalDataValue inner count exprs
    | ty                 => t.globalAggregateInitData globalDataValue ty exprs

def globalDataExpr (ty : CType) (expr : Expr) : ValueM (List DataValue) :=
  match expr with
  | .initList exprs   => t.globalInitListData globalDataValue ty exprs
  | .string text      => t.globalStringData ty text
  | .float text       => t.scalarFloatData ty text
  | .cast ty' value   => do
    if ← staticAddressInitializer value then globalDataValue ty (some value)
    else t.scalarConstantData ty (.cast ty' value)
  | .unary "&" value  => t.globalAddressExprData ty value
  | .var name         => t.globalVarData ty name
  | expr              => t.scalarConstantData ty expr

end Aggregates

-- The fuel bounds the depth of the initializer.
def globalDataValue : (fuel : Nat) → CType → Option Expr → ValueM (List DataValue)
  | 0,        _,  _         => fun _ => outOfFuel
  | _ + 1,    ty, none      => t.zeroDataForType ty
  | fuel + 1, ty, some expr => t.globalDataExpr (globalDataValue fuel) ty expr

-- The bound of an array is completed by a list or by a string.
def initializedUnboundedArraySize (inner : CType) (values : List DataValue) (initExpr : Option Expr) :
    ValueM Int :=
  match initExpr, inner with
  | some (.initList _), _     => dataSizeTarget values
  | some (.string _),   .char => dataSizeTarget values
  | _,                  _     => t.typeSize (.array inner none)

def initializedSize (ty : CType) (values : List DataValue) (initExpr : Option Expr) : ValueM Int :=
  match ty with
  | .array inner none => t.initializedUnboundedArraySize inner values initExpr
  | ty                => t.typeSize ty

def globalData (fuel : Nat) (ty : CType) (initExpr : Option Expr) : ValueM (List DataValue) := do
  let values ← t.globalDataValue fuel ty initExpr
  let size ← t.initializedSize ty values initExpr
  padDataTarget size values

end Typing
end Hcc
