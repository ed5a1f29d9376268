import Hcc.Compile.Basic
import Hcc.Literal.Constant

namespace Hcc

open Stateful

section Builtins

def builtinConstant (name : String) : Option Int :=
  match name with
  | "NULL"     => some 0
  | "__null"   => some 0
  | "__LINE__" => some 0
  | "char"     => some 1
  | "short"    => some 2
  | "int"      => some 4
  | "long"     => some 8
  | _          => none

def isIgnoredSideEffectCall (name : String) : Bool :=
  name ∈ ["oputs", "eputs"]

def isSignedNamedInteger (name : String) : Bool :=
  name ∈ ["signed_short", "int8_t", "int16_t", "int32_t", "int64_t", "ssize_t", "time_t",
    "ptrdiff_t", "intptr_t", "Elf32_Sword", "Elf64_Sword", "Elf32_Sxword", "Elf64_Sxword"]

def namedIntegerSize (name : String) : Option Int :=
  if name ∈ ["int8_t", "uint8_t"] then some 1
  else if name ∈ ["signed_short", "unsigned_short", "int16_t", "uint16_t", "Elf32_Half", "Elf64_Half",
      "Elf32_Section", "Elf64_Section", "Elf32_Versym", "Elf64_Versym"] then some 2
  else if name ∈ ["int32_t", "uint32_t", "Elf32_Word", "Elf64_Word", "Elf32_Sword", "Elf64_Sword",
      "Elf32_Addr", "Elf32_Off"] then some 4
  else if name ∈ ["unsigned_long", "int64_t", "uint64_t", "size_t", "ssize_t", "time_t", "ptrdiff_t",
      "intptr_t", "uintptr_t", "addr_t", "Elf32_Xword", "Elf32_Sxword", "Elf64_Xword",
      "Elf64_Sxword", "Elf64_Addr", "Elf64_Off"] then some 8
  else none

def targetWordSizedNames : List String :=
  ["unsigned_long", "size_t", "ssize_t", "time_t", "ptrdiff_t", "intptr_t", "uintptr_t", "addr_t"]

def isFunctionNameMacro (name : String) : Bool :=
  name ∈ ["__func__", "__FUNCTION__", "__PRETTY_FUNCTION__"]

def isComparisonOpString (op : String) : Bool :=
  op ∈ ["<", "<=", ">", ">="]

end Builtins

section Classification

def isAggregateType : CType → Bool
  | .array ..       => true
  | .struct _       => true
  | .union _        => true
  | .structNamed .. => true
  | .unionNamed ..  => true
  | .structDef _    => true
  | .unionDef _     => true
  | _               => false

def isPointerType : CType → Bool
  | .ptr _      => true
  | .named name => name ∈ ["intptr_t", "uintptr_t"]
  | _           => false

def isSignedIntegerType : CType → Bool
  | .char       => true
  | .short      => true
  | .int        => true
  | .long       => true
  | .longLong   => true
  | .enum _     => true
  | .named name => isSignedNamedInteger name
  | _           => false

def isUnsignedType : CType → Bool
  | .unsigned         => true
  | .unsignedChar     => true
  | .unsignedShort    => true
  | .unsignedLong     => true
  | .unsignedLongLong => true
  | .bool             => true
  | .ptr _            => true
  | .array ..         => true
  | .named name       => (namedIntegerSize name).isSome && !isSignedNamedInteger name
  | _                 => false

def isIntegerType : CType → Bool
  | .char             => true
  | .short            => true
  | .unsignedChar     => true
  | .unsignedShort    => true
  | .int              => true
  | .unsigned         => true
  | .long             => true
  | .unsignedLong     => true
  | .longLong         => true
  | .unsignedLongLong => true
  | .bool             => true
  | .enum _           => true
  | .named name       => (namedIntegerSize name).isSome
  | _                 => false

def isIntegerTypeM (ty : CType) : ValueM Bool :=
  return isIntegerType ty

def isFloatingType : CType → Bool
  | .float      => true
  | .double     => true
  | .longDouble => true
  | _           => false

def isLongDoubleType : CType → Bool
  | .longDouble => true
  | _           => false

def isDoubleType : CType → Bool
  | .double => true
  | _       => false

def usualFloatingType (leftTy rightTy : CType) : CType :=
  if isLongDoubleType leftTy || isLongDoubleType rightTy then .longDouble
  else if isDoubleType leftTy || isDoubleType rightTy then .double
  else .float

def canonicalIntegerBySize (size word : Int) (unsigned : Bool) : CType :=
  if size ≤ 4 then (if unsigned then .unsigned else .int)
  else if size = word then (if unsigned then .unsignedLong else .long)
  else (if unsigned then .unsignedLongLong else .longLong)

def integerRank : CType → Int
  | .int              => 1
  | .unsigned         => 1
  | .long             => 2
  | .unsignedLong     => 2
  | .longLong         => 3
  | .unsignedLongLong => 3
  | _                 => 1

def integerKindId : CType → Int
  | .int              => 0
  | .unsigned         => 1
  | .long             => 2
  | .unsignedLong     => 3
  | .longLong         => 4
  | .unsignedLongLong => 5
  | _                 => -1

def higherRankType (a b : CType) : CType :=
  if integerRank a ≥ integerRank b then a else b

def correspondingUnsigned : CType → CType
  | .int      => .unsigned
  | .long     => .unsignedLong
  | .longLong => .unsignedLongLong
  | ty        => ty

def floatLiteralType (text : List Char) : CType :=
  match floatLiteralSize text with
  | 4  => .float
  | 16 => .longDouble
  | _  => .double

def pointerElementType : Option CType → Option CType
  | some (.ptr ty)     => some ty
  | some (.array ty _) => some ty
  | _                  => none

def functionResultType : CType → Option CType
  | .func ret _ => some ret
  | .ptr inner  => functionResultType inner
  | _           => none

def addExprResultType (leftTy rightTy : Option CType) (arithmeticTy : CType) : Option CType :=
  match pointerElementType leftTy with
  | some _ => leftTy
  | none   =>
    match pointerElementType rightTy with
    | some _ => rightTy
    | none   => some arithmeticTy

def subExprResultType (leftTy rightTy : Option CType) (arithmeticTy : CType) : Option CType :=
  match pointerElementType leftTy with
  | some _ =>
    match pointerElementType rightTy with
    | some _ => some .long
    | none   => leftTy
  | none => some arithmeticTy

def aggregateCacheName : CType → Option String
  | .struct name        => some name
  | .union name         => some name
  | .structNamed name _ => some name
  | .unionNamed name _  => some name
  | .named name         => some name
  | _                   => none

def alignUp (offset align : Int) : Int :=
  let remnant := offset % align
  if remnant = 0 then offset else offset + align - remnant

def unionOffset (isUnion : Bool) (aligned : Int) : Int :=
  if isUnion then 0 else aligned

end Classification

def requireMaybeType (msg : String) : Option CType → ValueM CType
  | some ty => return ty
  | none    => throw msg

-- The members of an aggregate. Mentioning a definition with a tag binds the tag.
def aggregateFields (ty : CType) : ValueM (Option (Bool × List Field)) :=
  match ty with
  | .structDef fields        => return some (false, fields)
  | .unionDef fields         => return some (true, fields)
  | .structNamed name fields => do
    bindStruct name false fields
    return some (false, fields)
  | .unionNamed name fields  => do
    bindStruct name true fields
    return some (true, fields)
  | .struct name             => lookupStruct name
  | .union name              => lookupStruct name
  | .named name              => lookupStruct name
  | _                        => return none

def isAggregateTypeM (ty : CType) : ValueM Bool :=
  match ty with
  | .array ..   => return true
  | .named name => do
    return (← aggregateFields (.named name)).isSome
  | ty          => return isAggregateType ty

def sizeConstant (n : Int) : ValueM Constant := do
  let word ← targetWordSize
  return constantConvert word.toNat true (constantInt word.toNat n)

def checkedArraySize (size count : Int) : ValueM Int :=
  if count > 0 ∧ size > 2147483647 / count then throw "array size exceeds supported layout range"
  else return size * count

def integerLiteralType (text : List Char) : ValueM CType := do
  let word ← targetWordSize
  match constantLiteralRankedChecked word.toNat false text with
  | .error msg      => throw msg
  | .ok (rank, value) =>
    return if rank = 1 then (if value.unsigned then .unsigned else .int)
      else if rank = 2 then (if value.unsigned then .unsignedLong else .long)
      else (if value.unsigned then .unsignedLongLong else .longLong)

-- The recursive parts of the computation of types.
structure Typing where
  typeSize            : CType → ValueM Int
  typeAlign           : CType → ValueM Int
  exprType            : Expr → ValueM (Option CType)
  constExprTyped      : (live : Bool) → Expr → ValueM Constant
  anonymousMemberInfo : (baseOffset : Int) → CType → (field : String) → ValueM (Option (CType × Int))

namespace Typing

variable (t : Typing)

def arrayBoundSize (bound : Option Expr) : ValueM Int :=
  match bound with
  | none      => return 1
  | some expr => do
    let value ← t.constExprTyped true expr
    match constantToIntChecked value with
    | none   => throw "array extent exceeds supported layout range"
    | some n => if n < 0 then throw "negative array extent" else return n

section Layout

def foldAggregateFields (offset maxAlign : Int) : List Field → ValueM (Int × Int)
  | []               => return (offset, maxAlign)
  | .mk ty _ :: rest => do
    let align ← t.typeAlign ty
    let size ← t.typeSize ty
    let aligned := alignUp offset align
    foldAggregateFields (aligned + size) (max maxAlign align) rest

def aggregateStructSize (fields : List Field) : ValueM Int := do
  let (size, maxAlign) ← t.foldAggregateFields 0 1 fields
  return alignUp size maxAlign

def unionFields : List Field → ValueM (Int × Int)
  | []               => return (0, 1)
  | .mk ty _ :: rest => do
    let size ← t.typeSize ty
    let align ← t.typeAlign ty
    let (restSize, restAlign) ← unionFields rest
    return (max size restSize, max align restAlign)

def aggregateUnionSize (members : List Field) : ValueM Int := do
  let (size, align) ← t.unionFields members
  return alignUp size align

def aggregateSize (isUnion : Bool) (fields : List Field) : ValueM Int :=
  if isUnion then t.aggregateUnionSize fields else t.aggregateStructSize fields

def structSize (name : String) : ValueM Int := do
  match ← lookupStructSizeCache name with
  | some size => return size
  | none      =>
    match ← lookupStruct name with
    | none                   => throw ("unknown struct or union: " ++ name)
    | some (isUnion, fields) =>
      let size ← t.aggregateSize isUnion fields
      cacheStructSize name size
      return size

def targetNamedTypeSize (name : String) (size : Int) : ValueM Int :=
  if name ∈ targetWordSizedNames then targetWordSize else return size

def namedTypeSize (name : String) : ValueM Int :=
  match namedIntegerSize name with
  | some size => targetNamedTypeSize name size
  | none      => do
    match ← lookupStruct name with
    | some _ => t.structSize name
    | none   => throw ("unknown type: " ++ name)

def typeSizeStep (ty : CType) : ValueM Int :=
  match ty with
  | .void                    => return 1
  | .bool                    => return 1
  | .char                    => return 1
  | .unsignedChar            => return 1
  | .short                   => return 2
  | .unsignedShort           => return 2
  | .int                     => return 4
  | .unsigned                => return 4
  | .float                   => return 4
  | .long                    => targetWordSize
  | .unsignedLong            => targetWordSize
  | .longLong                => return 8
  | .unsignedLongLong        => return 8
  | .double                  => return 8
  | .longDouble              => return 16
  | .ptr _                   => targetWordSize
  | .func ..                 => targetWordSize
  | .array inner count       => do
    let size ← t.typeSize inner
    let bound ← t.arrayBoundSize count
    checkedArraySize size bound
  | .struct name             => t.structSize name
  | .union name              => t.structSize name
  | .structNamed name fields => do
    bindStruct name false fields
    t.aggregateSize false fields
  | .unionNamed name fields  => do
    bindStruct name true fields
    t.aggregateSize true fields
  | .structDef fields        => t.aggregateSize false fields
  | .unionDef fields         => t.aggregateSize true fields
  | .enum _                  => return 4
  | .named name              => t.namedTypeSize name

def aggregateAlign : List Field → ValueM Int
  | []               => return 1
  | .mk ty _ :: rest => do
    let align ← t.typeAlign ty
    let restAlign ← aggregateAlign rest
    return max align restAlign

def typeAlignStep (ty : CType) : ValueM Int :=
  match ty with
  | .array inner _ => t.typeAlign inner
  | ty             => do
    match ← aggregateFields ty with
    | some (_, fields) => t.aggregateAlign fields
    | none             =>
      let size ← t.typeSize ty
      return if size ≥ 8 then 8 else if size ≥ 4 then 4 else if size ≥ 2 then 2 else 1

end Layout

section Members

def anonymousMemberInfoForName (isUnion : Bool) (aligned : Int) (ty : CType) (name field : String) :
    ValueM (Option (CType × Int)) :=
  if name = "" then t.anonymousMemberInfo (unionOffset isUnion aligned) ty field else return none

def fieldOffset (isUnion : Bool) (field : String) (offset : Int) :
    List Field → ValueM (Option (CType × Int))
  | []                  => return none
  | .mk ty name :: rest => do
    let align ← t.typeAlign ty
    let aligned := alignUp offset align
    if name = field then return some (ty, unionOffset isUnion aligned)
    else
      let size ← t.typeSize ty
      match ← t.anonymousMemberInfoForName isUnion aligned ty name field with
      | some info => return some info
      | none      => fieldOffset isUnion field (aligned + size) rest

def nestedFieldOffset (baseOffset : Int) (isUnion : Bool) (field : String) (offset : Int) :
    List Field → ValueM (Option (CType × Int))
  | []                       => return none
  | .mk fieldTy name :: rest => do
    let align ← t.typeAlign fieldTy
    let aligned := alignUp offset align
    let memberOffset := baseOffset + unionOffset isUnion aligned
    if name = field then return some (fieldTy, memberOffset)
    else
      let size ← t.typeSize fieldTy
      match ← t.anonymousMemberInfoForName false memberOffset fieldTy name field with
      | some info => return some info
      | none      => nestedFieldOffset baseOffset isUnion field (aligned + size) rest

def anonymousMemberInfoStep (baseOffset : Int) (ty : CType) (field : String) :
    ValueM (Option (CType × Int)) := do
  match ← aggregateFields ty with
  | none                   => return none
  | some (isUnion, fields) => t.nestedFieldOffset baseOffset isUnion field 0 fields

def memberInfoForAggregateUncached (ty : CType) (field : String) : ValueM (Option (CType × Int)) := do
  match ← aggregateFields ty with
  | none                   => return none
  | some (isUnion, fields) => t.fieldOffset isUnion field 0 fields

def memberInfoForAggregate (ty : CType) (field : String) : ValueM (Option (CType × Int)) :=
  match aggregateCacheName ty with
  | some name => do
    match ← lookupStructMemberCache name field with
    | some info => return some info
    | none      =>
      match ← t.memberInfoForAggregateUncached ty field with
      | some info => do
        cacheStructMember name field info
        return some info
      | none      => return none
  | none => t.memberInfoForAggregateUncached ty field

def memberInfoMaybe (mty : Option CType) (field : String) : ValueM (Option (CType × Int)) :=
  match mty with
  | some (.ptr ty) => t.memberInfoForAggregate ty field
  | _              => return none

def memberInfo (mty : Option CType) (field : String) : ValueM (CType × Int) := do
  match ← t.memberInfoMaybe mty field with
  | some info => return info
  | none      => throw ("unknown struct member: " ++ field ++ " on aggregate")

end Members

section Conversions

def promoteIntegerType (ty : CType) : ValueM CType := do
  if ← isIntegerTypeM ty then
    let size ← t.typeSize ty
    return if size < 4 then .int else ty
  else return ty

def promoteMaybeIntegerType (mty : Option CType) : ValueM (Option CType) :=
  match mty with
  | none    => return none
  | some ty => do return some (← t.promoteIntegerType ty)

def promotedExprType (expr : Expr) : ValueM CType :=
  match expr with
  | .float text => return floatLiteralType text
  | expr        => do
    let mty ← t.exprType expr
    let ty ← requireMaybeType ("expression has unknown type: " ++ renderExprTag expr) mty
    t.promoteIntegerType ty

def canonicalIntegerType (ty : CType) : ValueM CType := do
  if ← isIntegerTypeM ty then
    match ty with
    | .int | .unsigned | .long | .unsignedLong | .longLong | .unsignedLongLong => return ty
    | ty =>
      let size ← t.typeSize ty
      let word ← targetWordSize
      return canonicalIntegerBySize size word (isUnsignedType ty)
  else return ty

def usualArithmeticTypes (leftTy0 rightTy0 : CType) : ValueM CType := do
  if isFloatingType leftTy0 || isFloatingType rightTy0 then return usualFloatingType leftTy0 rightTy0
  else
    let leftTy ← t.canonicalIntegerType leftTy0
    let rightTy ← t.canonicalIntegerType rightTy0
    if integerKindId leftTy = integerKindId rightTy then return leftTy
    else if isUnsignedType leftTy = isUnsignedType rightTy then return higherRankType leftTy rightTy
    else
      let (signedTy, unsignedTy) :=
        if isUnsignedType leftTy then (rightTy, leftTy) else (leftTy, rightTy)
      if integerRank unsignedTy ≥ integerRank signedTy then return unsignedTy
      else
        let signedSize ← t.typeSize signedTy
        let unsignedSize ← t.typeSize unsignedTy
        return if signedSize > unsignedSize then signedTy else correspondingUnsigned signedTy

def usualArithmeticType (left right : Expr) : ValueM CType := do
  let leftTy0 ← t.promotedExprType left
  let rightTy0 ← t.promotedExprType right
  t.usualArithmeticTypes leftTy0 rightTy0

def conditionalType (yes no : Expr) : ValueM (Option CType) := do
  let yesTy ← t.exprType yes
  let noTy ← t.exprType no
  match yesTy, noTy with
  | some a, some b => do
    let ai ← isIntegerTypeM a
    let bi ← isIntegerTypeM b
    if (ai || isFloatingType a) && (bi || isFloatingType b) then
      return some (← t.usualArithmeticType yes no)
    else match pointerElementType yesTy with
      | some inner => return some (.ptr inner)
      | none       =>
        match pointerElementType noTy with
        | some inner => return some (.ptr inner)
        | none       => return yesTy
  | some _, none => return yesTy
  | none,   _    => return noTy

end Conversions

-- The type of a called name is taken from the entity that is visible first.
def callNameType (name : String) : ValueM (Option CType) := do
  match ← lookupVarType name with
  | some ty => return functionResultType ty
  | none    =>
    match (← lookupFunctionType name).bind functionResultType with
    | some retTy => return some retTy
    | none       =>
      match (← lookupGlobalType name).bind functionResultType with
      | some retTy => return some retTy
      | none       => return if ← lookupFunction name then some .long else none

def varType (name : String) : ValueM (Option CType) := do
  if isFunctionNameMacro name then return some (.ptr .char)
  else
    match ← lookupVarType name with
    | some ty => return some ty
    | none    =>
      match ← lookupFunctionType name with
      | some ty => return some ty
      | none    => lookupGlobalType name

def binaryType (op : String) (left right : Expr) : ValueM (Option CType) := do
  if op = "+" then
    let leftTy ← t.exprType left
    let rightTy ← t.exprType right
    let arithmeticTy ← t.usualArithmeticType left right
    return addExprResultType leftTy rightTy arithmeticTy
  else if op = "-" then
    let leftTy ← t.exprType left
    let rightTy ← t.exprType right
    let arithmeticTy ← t.usualArithmeticType left right
    return subExprResultType leftTy rightTy arithmeticTy
  else if op ∈ ["<<", ">>"] then
    t.promoteMaybeIntegerType (← t.exprType left)
  else if op = "," then t.exprType right
  else if op ∈ ["&&", "||"] then return some .int
  else if isComparisonOpString op || op ∈ ["==", "!="] then return some .int
  else
    let leftTy ← t.exprType left
    let rightTy ← t.exprType right
    let arithmeticTy ← t.usualArithmeticType left right
    if op ∈ ["*", "/", "%", "&", "|", "^"] then return some arithmeticTy
    else return if leftTy.isSome && rightTy.isSome then some arithmeticTy else none

def exprTypeStep (expr : Expr) : ValueM (Option CType) :=
  match expr with
  | .int text              => some <$> integerLiteralType text
  | .float text            => return some (floatLiteralType text)
  | .char _                => return some .int
  | .string _              => return some (.ptr .char)
  | .sizeofType _          => return some (.named "size_t")
  | .sizeofExpr _          => return some (.named "size_t")
  | .var name              => varType name
  | .cast ty _             => return some ty
  | .unary op value        => do
    if op ∈ ["+", "-", "~"] then return some (← t.promotedExprType value)
    else if op = "!" then return some .int
    else if op = "*" then return pointerElementType (← t.exprType value)
    else if op = "&" then return (← t.exprType value).map .ptr
    else if op ∈ ["++", "--"] then t.exprType value
    else return none
  | .index base _          => do return pointerElementType (← t.exprType base)
  | .ptrMember base field  => do
    let baseTy ← t.exprType base
    return (← t.memberInfoMaybe baseTy field).map Prod.fst
  | .member base field     => do
    let baseTy ← t.exprType base
    let knownBaseTy ← requireMaybeType "member base has unknown type" baseTy
    return (← t.memberInfoMaybe (some (.ptr knownBaseTy)) field).map Prod.fst
  | .binary op left right  => t.binaryType op left right
  | .cond _ yes no         => t.conditionalType yes no
  | .assign lhs _          => t.exprType lhs
  | .compoundAssign _ lhs _ => t.exprType lhs
  | .postIncDec _ value    => t.exprType value
  | .call (.var name) _    => callNameType name
  | .call callee _         => do return (← t.exprType callee).bind functionResultType
  | .initList _            => return none

section Constants

def castConstant (ty : CType) (value : Constant) : ValueM Constant :=
  match ty with
  | .bool => return constantInt 1 (boolToInt (constantTrue value))
  | ty    => do
    let integer ← isIntegerTypeM ty
    if integer || isPointerType ty then
      let size ← t.typeSize ty
      return constantConvert size.toNat (isUnsignedType ty || isPointerType ty) value
    else throw "unsupported non-integer constant conversion"

-- Arms that are not evaluated contribute their type.
def unevaluatedConstant (expr : Expr) : ValueM Constant := do
  let mty ← t.exprType expr
  let ty ← requireMaybeType "unevaluated constant expression has unknown type" mty
  t.castConstant ty (constantInt 4 0)

def unsupportedConstant (live : Bool) (expr : Expr) : ValueM Constant :=
  if live then throw ("unsupported constant expression: " ++ renderExprTag expr)
  else t.unevaluatedConstant expr

def constExprTypedStep (live : Bool) (expr : Expr) : ValueM Constant :=
  match expr with
  | .int text             => do
    let word ← targetWordSize
    match constantLiteralChecked word.toNat false text with
    | .ok value  => return value
    | .error msg => throw msg
  | .char text            => return constantInt 4 (charValue text)
  | .sizeofType ty        => do sizeConstant (← t.typeSize ty)
  | .sizeofExpr value     => do
    let mty ← t.exprType value
    let ty ← requireMaybeType "sizeof expression has unknown type" mty
    sizeConstant (← t.typeSize ty)
  | .unary "&" (.ptrMember (.cast (.ptr ty) (.int ['0'])) field) => do
    let info ← t.memberInfo (some (.ptr ty)) field
    sizeConstant info.2
  | .var name             => do
    match ← lookupConstant name with
    | some value => return constantInt 4 value
    | none       =>
      match builtinConstant name with
      | some value => return constantInt 4 value
      | none       =>
        if live then throw ("unknown constant: " ++ name) else t.unevaluatedConstant (.var name)
  | .cast ty value        => do t.castConstant ty (← t.constExprTyped live value)
  | .unary op value       => do
    if op ∈ ["-", "+", "~", "!"] then
      let n ← t.constExprTyped live value
      return if op = "!" then constantInt 4 (boolToInt (!constantTrue n))
        else constantUnary op (constantPromote n)
    else t.unsupportedConstant live (.unary op value)
  | .binary op left right => do
    let a ← t.constExprTyped live left
    let rightLive := live && (if op = "&&" then constantTrue a
      else if op = "||" then !constantTrue a else true)
    let b ← t.constExprTyped rightLive right
    let a' := constantPromote a
    let b' := constantPromote b
    match constantBinary op a' b' with
    | .ok value  => return value
    | .error msg =>
      if live then throw msg
      else return if op = "<<" || op = ">>" then a' else (constantCommon a' b').1
  | .cond cond yes no     => do
    let c ← t.constExprTyped live cond
    let a ← t.constExprTyped (live && constantTrue c) yes
    let b ← t.constExprTyped (live && !constantTrue c) no
    let (a', b') := constantCommon (constantPromote a) (constantPromote b)
    return if constantTrue c then a' else b'
  | expr                  => t.unsupportedConstant live expr

end Constants
end Typing

-- The fuel bounds the depth of the recursion.
def typing : (fuel : Nat) → Typing
  | 0        => {
      typeSize            := fun _ _ => outOfFuel
      typeAlign           := fun _ _ => outOfFuel
      exprType            := fun _ _ => outOfFuel
      constExprTyped      := fun _ _ _ => outOfFuel
      anonymousMemberInfo := fun _ _ _ _ => outOfFuel
    }
  | fuel + 1 => {
      typeSize            := (typing fuel).typeSizeStep
      typeAlign           := (typing fuel).typeAlignStep
      exprType            := (typing fuel).exprTypeStep
      constExprTyped      := (typing fuel).constExprTypedStep
      anonymousMemberInfo := (typing fuel).anonymousMemberInfoStep
    }

end Hcc
