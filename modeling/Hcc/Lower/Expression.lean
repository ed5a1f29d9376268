import Hcc.Lower.Data
import Hcc.Lower.Object

namespace Hcc

open Stateful

section Operators

def exceedsSignedInt : List Int → Bool
  | _ :: _ :: _ :: b3 :: b4 :: b5 :: b6 :: b7 :: _ =>
    b4 != 0 || b5 != 0 || b6 != 0 || b7 != 0 || b3 ≥ 128
  | _ => false

def parseIntBytes (text : List Char) : Option (List Int) :=
  let bytes := naturalLiteralBytes (stripIntSuffix text)
  if exceedsSignedInt bytes then some bytes else none

def intConstOperand (text : List Char) : Operand :=
  match parseIntBytes text with
  | some bytes => .immBytes bytes
  | none       => .imm (parseInt text)

def lowerBinOp (op : String) : Option BinOp :=
  match op with
  | "+"  => some .add
  | "-"  => some .sub
  | "*"  => some .mul
  | "/"  => some .div
  | "%"  => some .mod
  | "<<" => some .shl
  | ">>" => some .shr
  | "==" => some .eq
  | "!=" => some .ne
  | "&"  => some .and
  | "|"  => some .or
  | "^"  => some .xor
  | "&&" => some .and
  | "||" => some .or
  | _    => none

def isComparisonBinOp : BinOp → Bool
  | .eq | .ne | .lt | .le | .gt | .ge | .ult | .ule | .ugt | .uge => true
  | _                                                             => false

def exprIsBoolean : Expr → Bool
  | .unary "!" _   => true
  | .binary op _ _ => op ∈ ["==", "!=", "<", "<=", ">", ">=", "&&", "||"]
  | _              => false

def noOpInlineAsmArgs : List Expr → Bool
  | [.string text] => stringBytes text = [110, 111, 112, 0]
  | _              => false

end Operators

namespace Typing

variable (t : Typing)

-- Comparisons of pointers use operands of the width of a pointer.
def comparisonOperandType (a b : Expr) : ValueM CType := do
  let aty ← t.exprType a
  let bty ← t.exprType b
  match pointerElementType aty with
  | some inner => return .ptr inner
  | none       =>
    match pointerElementType bty with
    | some inner => return .ptr inner
    | none       => t.usualArithmeticType a b

def comparisonOp (op : String) (a b : Expr) : ValueM BinOp := do
  let commonTy ← t.comparisonOperandType a b
  return match isUnsignedType commonTy, op with
    | false, "<"  => .lt
    | false, "<=" => .le
    | false, ">"  => .gt
    | false, ">=" => .ge
    | true,  "<"  => .ult
    | true,  "<=" => .ule
    | true,  ">"  => .ugt
    | true,  ">=" => .uge
    | _,     _    => .eq

def shiftRightOp (expr : Expr) : ValueM BinOp := do
  let ty ← t.promotedExprType expr
  return if isUnsignedType ty then .shr else .sar

def indexedElementType (base : Expr) : ValueM CType := do
  match ← t.exprType base with
  | some (.ptr ty)     => return ty
  | some (.array ty _) => return ty
  | _                  => throw "subscripted value has unknown element type"

def incDecStep (target : Expr) : ValueM Int := do
  match ← t.exprType target with
  | some (.ptr ty) => t.typeSize ty
  | _              => return 1

def pointerCompoundOffset (op : BinOp) (base offset : Operand) (elemTy : CType) :
    ValueM (List Instr × Operand) := do
  let size ← t.typeSize elemTy
  if size = 1 then
    let out ← freshTemp
    return ([.bin out op base offset], .temp out)
  else
    let scaled ← freshTemp
    let out ← freshTemp
    return ([.bin scaled .mul offset (.imm size), .bin out op base (.temp scaled)], .temp out)

def compoundIntegerOp (op : String) (commonTy : CType) : ValueM BinOp :=
  if op = "/" then return if isUnsignedType commonTy then .udiv else .div
  else if op = "%" then return if isUnsignedType commonTy then .umod else .mod
  else if op = ">>" then return if isUnsignedType commonTy then .shr else .sar
  else match lowerBinOp op with
    | some iop => return iop
    | none     => throw ("unsupported compound assignment operator: " ++ op)

def compoundIntegerBinOp (op : String) (targetTy : CType) (lhsOp : Operand) (rhsExpr : Expr)
    (rhsOp : Operand) : ValueM (List Instr × Operand) := do
  let leftTy ← t.promoteIntegerType targetTy
  let rightTy ← t.promotedExprType rhsExpr
  let shift := op = "<<" || op = ">>"
  let commonTy ← (if shift then return leftTy else t.usualArithmeticTypes leftTy rightTy : ValueM CType)
  let (leftInstrs, leftOp) ← t.coerceScalar commonTy lhsOp
  let (rightInstrs, rightOp) ← t.coerceScalar (if shift then rightTy else commonTy) rhsOp
  let iop ← compoundIntegerOp op commonTy
  let out ← freshTemp
  return (leftInstrs ++ rightInstrs ++ [.bin out iop leftOp rightOp], .temp out)

def compoundBinOp (op : String) (targetTy : CType) (lhsOp : Operand) (rhsExpr : Expr)
    (rhsOp : Operand) : ValueM (List Instr × Operand) :=
  match targetTy with
  | .ptr elemTy =>
    if op = "+" then t.pointerCompoundOffset .add lhsOp rhsOp elemTy
    else if op = "-" then t.pointerCompoundOffset .sub lhsOp rhsOp elemTy
    else t.compoundIntegerBinOp op (.ptr elemTy) lhsOp rhsExpr rhsOp
  | targetTy    => t.compoundIntegerBinOp op targetTy lhsOp rhsExpr rhsOp

end Typing

-- The recursive parts of the lowering of expressions.
structure Lowering extends Typing where
  lowerExpr       : Expr → ValueM (List Instr × Operand)
  lowerSideEffect : Expr → ValueM (List Instr)
  lowerLValue     : Expr → ValueM (List Instr × LValue)

namespace Lowering

variable (l : Lowering)

section Variables

def lowerTypedGlobalVarExpr (name : String) (ty : CType) : ValueM (List Instr × Operand) :=
  match ty with
  | .array .. => return ([], .global name)
  | ty        => do
    if ← isAggregateTypeM ty then return ([], .global name)
    else
      let out ← freshTemp
      let load ← l.loadInstr out ty (.global name)
      return ([load], .temp out)

def lowerGlobalVarExpr (name : String) : ValueM (List Instr × Operand) := do
  match ← lookupGlobalType name with
  | some ty => l.lowerTypedGlobalVarExpr name ty
  | none    => throw ("unknown identifier: " ++ name)

def lowerNonLocalVarExpr (name : String) : ValueM (List Instr × Operand) := do
  if ← lookupFunction name then return ([], .function name)
  else l.lowerGlobalVarExpr name

def lowerNonConstantVarExpr (name : String) : ValueM (List Instr × Operand) := do
  match ← lookupVarMaybe name with
  | some temp =>
    let ty ← requireMaybeType ("unknown local type: " ++ name) (← lookupVarType name)
    l.coerceScalar ty (.temp temp)
  | none      => l.lowerNonLocalVarExpr name

def lowerNonBuiltinVarExpr (name : String) : ValueM (List Instr × Operand) := do
  match ← lookupConstant name with
  | some value => return ([], .imm value)
  | none       => l.lowerNonConstantVarExpr name

def lowerFunctionNameMacro : ValueM (List Instr × Operand) := do
  match ← currentFunctionName with
  | some name => l.lowerExpr (.string name.toList)
  | none      => return ([], .imm 0)

def lowerVarExpr (name : String) : ValueM (List Instr × Operand) :=
  if isFunctionNameMacro name then l.lowerFunctionNameMacro
  else match builtinConstant name with
    | some value => return ([], .imm value)
    | none       => l.lowerNonBuiltinVarExpr name

end Variables

section Addresses

def lowerNonFunctionAddress (target : Expr) : ValueM (List Instr × Operand) := do
  let (instrs, lvalue) ← l.lowerLValue target
  match lvalue with
  | .lAddress addr _ => return (instrs, addr)
  | .lLocal temp ty  =>
    if ← isAggregateTypeM ty then return (instrs, .temp temp)
    else
      let out ← freshTemp
      return (instrs ++ [.addrOf out temp], .temp out)

def lowerVarAddress (name : String) : ValueM (List Instr × Operand) := do
  match ← lookupVarMaybe name with
  | some _ => l.lowerNonFunctionAddress (.var name)
  | none   =>
    if ← lookupFunction name then return ([], .function name)
    else l.lowerNonFunctionAddress (.var name)

def lowerLValueAddress (target : Expr) : ValueM (List Instr × Operand) :=
  match target with
  | .var name => l.lowerVarAddress name
  | target    => l.lowerNonFunctionAddress target

def lowerVarLValue (name : String) : ValueM (List Instr × LValue) := do
  match ← lookupVarMaybe name with
  | some temp =>
    let knownTy ← requireMaybeType ("unknown local type: " ++ name) (← lookupVarType name)
    return ([], .lLocal temp knownTy)
  | none      =>
    let knownTy ← requireMaybeType ("unknown global type: " ++ name) (← lookupGlobalType name)
    return ([], .lAddress (.global name) knownTy)

def lowerLValueStep (target : Expr) : ValueM (List Instr × LValue) :=
  match target with
  | .var name             => lowerVarLValue name
  | .unary "*" ptr        => do
    let (instrs, op) ← l.lowerExpr ptr
    let ty ← l.exprType (.unary "*" ptr)
    let knownTy ← requireMaybeType "dereference has unknown pointed-to type" ty
    return (instrs, .lAddress op knownTy)
  | .index base ix        => do
    let (baseInstrs, baseOp) ← l.lowerExpr base
    let (ixInstrs, ixOp) ← l.lowerExpr ix
    let elemTy ← l.indexedElementType base
    let elemSize ← l.typeSize elemTy
    let (scaleInstrs, offsetOp) ← scaledIndex ixOp elemSize
    let addr ← freshTemp
    return (baseInstrs ++ ixInstrs ++ scaleInstrs ++ [.bin addr .add baseOp offsetOp],
      .lAddress (.temp addr) elemTy)
  | .ptrMember base field => do
    let (baseInstrs, baseOp) ← l.lowerExpr base
    let baseTy ← l.exprType base
    let (fieldTy, offset) ← l.memberInfo baseTy field
    let (addrInstrs, addrOp) ← offsetAddress baseOp offset
    return (baseInstrs ++ addrInstrs, .lAddress addrOp fieldTy)
  | .member base field    => do
    let (baseInstrs, baseAddr) ← l.lowerLValueAddress base
    let baseTy ← l.exprType base
    let knownBaseTy ← requireMaybeType "member base has unknown type" baseTy
    let (fieldTy, offset) ← l.memberInfo (some (.ptr knownBaseTy)) field
    let (addrInstrs, addrOp) ← offsetAddress baseAddr offset
    return (baseInstrs ++ addrInstrs, .lAddress addrOp fieldTy)
  | target                => throw ("unsupported lvalue: " ++ renderExprTag target)

def readLValueExpr (target : Expr) : ValueM (List Instr × Operand) := do
  let (instrs, lvalue) ← l.lowerLValue target
  let (readInstrs, op) ← l.readLValue lvalue
  return (instrs ++ readInstrs, op)

end Addresses

section Assignments

def lowerAssignment (lhs rhs : Expr) : ValueM (List Instr × Operand) := do
  let (lhsInstrs, lvalue) ← l.lowerLValue lhs
  let (rhsInstrs, rhsOp) ← l.lowerExpr rhs
  let (coerceInstrs, coerceOp) ← l.coerceScalar (lValueType lvalue) rhsOp
  let writeInstrs ← l.writeLValue lvalue coerceOp
  return (lhsInstrs ++ rhsInstrs ++ coerceInstrs ++ writeInstrs, coerceOp)

def lowerCompoundAssignment (op : String) (lhs rhs : Expr) : ValueM (List Instr × Operand) := do
  let (lhsInstrs, lvalue) ← l.lowerLValue lhs
  let (readInstrs, currentOp) ← l.readLValue lvalue
  let targetTy := lValueType lvalue
  let (rhsInstrs, rhsOp) ← l.lowerExpr rhs
  let (opInstrs, resultOp) ← l.compoundBinOp op targetTy currentOp rhs rhsOp
  let (coerceInstrs, coerceOp) ← l.coerceScalar targetTy resultOp
  let writeInstrs ← l.writeLValue lvalue coerceOp
  return (lhsInstrs ++ readInstrs ++ rhsInstrs ++ opInstrs ++ coerceInstrs ++ writeInstrs, coerceOp)

-- The new value is coerced for a prefix operator only.
def lowerIncDec (isPrefix : Bool) (op : BinOp) (target : Expr) : ValueM (List Instr × Operand) := do
  let (lvInstrs, lvalue) ← l.lowerLValue target
  let (readInstrs, current) ← l.readLValue lvalue
  let out ← freshTemp
  let step ← l.incDecStep target
  if isPrefix then
    let (coerceInstrs, coerceOp) ← l.coerceScalar (lValueType lvalue) (.temp out)
    let writeInstrs ← l.writeLValue lvalue coerceOp
    return (lvInstrs ++ readInstrs ++ [.bin out op current (.imm step)] ++ coerceInstrs ++ writeInstrs,
      coerceOp)
  else
    let old ← freshTemp
    let writeInstrs ← l.writeLValue lvalue (.temp out)
    let opInstrs := [.bin old .add current (.imm 0), .bin out op (.temp old) (.imm step)]
    return (lvInstrs ++ readInstrs ++ opInstrs ++ writeInstrs, .temp old)

end Assignments

section Operators

def lowerComparisonOperands (a b : Expr) : ValueM (List Instr × Operand × Operand) := do
  let (ai, ao) ← l.lowerExpr a
  let (bi, bo) ← l.lowerExpr b
  let commonTy ← l.comparisonOperandType a b
  let (acoerceInstrs, acoerceOp) ← l.coerceScalar commonTy ao
  let (bcoerceInstrs, bcoerceOp) ← l.coerceScalar commonTy bo
  return (ai ++ bi ++ acoerceInstrs ++ bcoerceInstrs, acoerceOp, bcoerceOp)

def lowerComparisonExpr (op : String) (a b : Expr) : ValueM (List Instr × Operand) := do
  let (instrs, ao, bo) ← l.lowerComparisonOperands a b
  let out ← freshTemp
  let iop ← l.comparisonOp op a b
  return (instrs ++ [.bin out iop ao bo], .temp out)

def lowerBranchComparison (op : String) (a b : Expr) :
    ValueM (List Instr × BinOp × Operand × Operand) := do
  let (instrs, ao, bo) ← l.lowerComparisonOperands a b
  let iop ← (if op = "==" then return .eq else if op = "!=" then return .ne
    else l.comparisonOp op a b : ValueM BinOp)
  return (instrs, iop, ao, bo)

def lowerPlainBin (op : BinOp) (a b : Expr) : ValueM (List Instr × Operand) := do
  let (ai, ao) ← l.lowerExpr a
  let (bi, bo) ← l.lowerExpr b
  let commonTy ← (if isComparisonBinOp op then l.comparisonOperandType a b
    else l.usualArithmeticType a b : ValueM CType)
  let (acoerceInstrs, acoerceOp) ← l.coerceScalar commonTy ao
  let (bcoerceInstrs, bcoerceOp) ← l.coerceScalar commonTy bo
  let out ← freshTemp
  let (coerceInstrs, coerceOp) ← (if isComparisonBinOp op then return ([], .temp out)
    else l.coerceScalar commonTy (.temp out) : ValueM (List Instr × Operand))
  return (ai ++ bi ++ acoerceInstrs ++ bcoerceInstrs ++ [.bin out op acoerceOp bcoerceOp] ++ coerceInstrs,
    coerceOp)

def lowerShiftExpr (op : String) (left right : Expr) : ValueM (List Instr × Operand) := do
  let (leftInstrs, leftOp) ← l.lowerExpr left
  let (rightInstrs, rightOp) ← l.lowerExpr right
  let out ← freshTemp
  let iop ← (if op = ">>" then l.shiftRightOp left else return .shl : ValueM BinOp)
  let resultTy ← l.exprType (.binary op left right)
  let (coerceInstrs, coerceOp) ← l.coerceMaybeScalar resultTy (.temp out)
  return (leftInstrs ++ rightInstrs ++ [.bin out iop leftOp rightOp] ++ coerceInstrs, coerceOp)

def lowerPointerDiff (a b : Expr) (elemTy : CType) : ValueM (List Instr × Operand) := do
  let (ai, ao) ← l.lowerExpr a
  let (bi, bo) ← l.lowerExpr b
  let diff ← freshTemp
  let out ← freshTemp
  let size ← l.typeSize elemTy
  return (ai ++ bi ++ [.bin diff .sub ao bo, .bin out .div (.temp diff) (.imm size)], .temp out)

def lowerPointerOffset (op : BinOp) (ptr offset : Expr) (elemTy : CType) :
    ValueM (List Instr × Operand) := do
  let (ptrInstrs, po) ← l.lowerExpr ptr
  let (oi, oo) ← l.lowerExpr offset
  let size ← l.typeSize elemTy
  let (scaledInstrs, scaledOp) ← scaledOffset oo size
  let out ← freshTemp
  return (ptrInstrs ++ oi ++ scaledInstrs ++ [.bin out op po scaledOp], .temp out)

def lowerAddExpr (a b : Expr) : ValueM (List Instr × Operand) := do
  let aty ← l.exprType a
  let bty ← l.exprType b
  match pointerElementType aty with
  | some elemTy => l.lowerPointerOffset .add a b elemTy
  | none        =>
    match pointerElementType bty with
    | some elemTy => l.lowerPointerOffset .add b a elemTy
    | none        => l.lowerPlainBin .add a b

def lowerSubExpr (a b : Expr) : ValueM (List Instr × Operand) := do
  let aty ← l.exprType a
  let bty ← l.exprType b
  match pointerElementType aty with
  | some elemTy =>
    match pointerElementType bty with
    | some _ => l.lowerPointerDiff a b elemTy
    | none   => l.lowerPointerOffset .sub a b elemTy
  | none        => l.lowerPlainBin .sub a b

def lowerTruthExpr (expr : Expr) : ValueM (List Instr × Operand) := do
  let (instrs, op) ← l.lowerExpr expr
  if exprIsBoolean expr then return (instrs, op)
  else
    let out ← freshTemp
    return (instrs ++ [.bin out .ne op (.imm 0)], .temp out)

def lowerShortCircuit (isAnd : Bool) (left right : Expr) : ValueM (List Instr × Operand) := do
  let (leftInstrs, leftOp) ← l.lowerExpr left
  let (rightInstrs, rightBool) ← l.lowerTruthExpr right
  let out ← freshTemp
  return if isAnd then ([.cond out leftInstrs leftOp rightInstrs rightBool [] (.imm 0)], .temp out)
    else ([.cond out leftInstrs leftOp [] (.imm 1) rightInstrs rightBool], .temp out)

def lowerDivision (op : String) (a b : Expr) : ValueM (List Instr × Operand) := do
  let commonTy ← l.usualArithmeticType a b
  let iop : BinOp := if isUnsignedType commonTy then (if op = "/" then .udiv else .umod)
    else if op = "/" then .div else .mod
  l.lowerPlainBin iop a b

def lowerBinaryExpr (op : String) (a b : Expr) : ValueM (List Instr × Operand) :=
  if isComparisonOpString op then l.lowerComparisonExpr op a b
  else if op = "/" || op = "%" then l.lowerDivision op a b
  else match lowerBinOp op with
    | some iop => if op = "<<" then l.lowerShiftExpr op a b else l.lowerPlainBin iop a b
    | none     => throw ("unsupported binary operator in lowering: " ++ op)

def lowerConditional (cond yes no : Expr) : ValueM (List Instr × Operand) := do
  let (ci, co) ← l.lowerExpr cond
  let (yi, yo) ← l.lowerExpr yes
  let (ni, noOp) ← l.lowerExpr no
  let resultTy ← l.conditionalType yes no
  let (yc, yesOp) ← l.coerceMaybeScalar resultTy yo
  let (nc, noResult) ← l.coerceMaybeScalar resultTy noOp
  let out ← freshTemp
  return ([.cond out ci co (yi ++ yc) yesOp (ni ++ nc) noResult], .temp out)

end Operators

section Calls

-- A struct or a union is passed as the address of a copy.
def lowerCallArg (expr : Expr) : ValueM (List Instr × Operand) := do
  let (instrs, op) ← l.lowerExpr expr
  match ← l.exprType expr with
  | none    => return (instrs, op)
  | some ty =>
    match ← aggregateFields ty with
    | none   => return (instrs, op)
    | some _ =>
      let size ← l.typeSize ty
      let temp ← freshTemp
      let copies ← l.copyObject (.temp temp) op ty
      return (instrs ++ [.alloca temp size] ++ copies, .temp temp)

def lowerCallArgs (args : List Expr) : ValueM (List Instr × List Operand) := do
  let lowered ← args.mapM l.lowerCallArg
  return (lowered.flatMap Prod.fst, lowered.map Prod.snd)

def lowerDirectCallExpr (name : String) (args : List Expr) : ValueM (List Instr × Operand) := do
  let (argInstrs, argOps) ← l.lowerCallArgs args
  let out ← freshTemp
  return (argInstrs ++ [.call (some out) name argOps], .temp out)

def lowerDirectSideEffect (name : String) (args : List Expr) : ValueM (List Instr) := do
  let (argInstrs, argOps) ← l.lowerCallArgs args
  return argInstrs ++ [.call none name argOps]

def lowerIndirectCallInstrs (result : Option Temp) (callee : Expr) (args : List Expr) :
    ValueM (List Instr) := do
  let (calleeInstrs, calleeOp) ← l.lowerExpr callee
  let (argInstrs, argOps) ← l.lowerCallArgs args
  return calleeInstrs ++ argInstrs ++ [.callIndirect result calleeOp argOps]

def lowerIndirectCall (callee : Expr) (args : List Expr) : ValueM (List Instr × Operand) := do
  let out ← freshTemp
  let instrs ← l.lowerIndirectCallInstrs (some out) callee args
  return (instrs, .temp out)

def lowerCallExpr (callee : Expr) (args : List Expr) : ValueM (List Instr × Operand) :=
  match callee with
  | .var name => do
    if ← lookupFunction name then l.lowerDirectCallExpr name args
    else l.lowerIndirectCall (.var name) args
  | callee    => l.lowerIndirectCall callee args

def lowerCallSideEffect (callee : Expr) (args : List Expr) : ValueM (List Instr) :=
  match callee with
  | .var name =>
    if name = "asm" then
      if noOpInlineAsmArgs args then return [] else throw "unsupported inline assembly"
    else if isIgnoredSideEffectCall name then return []
    else do
      if ← lookupFunction name then l.lowerDirectSideEffect name args
      else l.lowerIndirectCallInstrs none (.var name) args
  | callee    => l.lowerIndirectCallInstrs none callee args

end Calls

def lowerSideEffectStep (expr : Expr) : ValueM (List Instr) :=
  match expr with
  | .call callee args           => l.lowerCallSideEffect callee args
  | .assign lhs rhs             => Prod.fst <$> l.lowerAssignment lhs rhs
  | .compoundAssign op lhs rhs  => Prod.fst <$> l.lowerCompoundAssignment op lhs rhs
  | .postIncDec "--" target     => Prod.fst <$> l.lowerIncDec true .sub target
  | .postIncDec "++" target     => Prod.fst <$> l.lowerIncDec true .add target
  | expr                        => Prod.fst <$> l.lowerExpr expr

def lowerUnaryExpr (op : String) (x : Expr) : ValueM (List Instr × Operand) :=
  match op, x with
  | "+",  x                 => do
    let (a, op) ← l.lowerExpr x
    let ty ← l.promotedExprType x
    let (coerceInstrs, coerceOp) ← l.coerceScalar ty op
    return (a ++ coerceInstrs, coerceOp)
  | "-",  x                 => do
    let (a, op) ← l.lowerExpr x
    let zero ← freshTemp
    let out ← freshTemp
    let ty ← l.promotedExprType x
    let (coerceInstrs, coerceOp) ← l.coerceScalar ty (.temp out)
    return (a ++ [.const zero 0, .bin out .sub (.temp zero) op] ++ coerceInstrs, coerceOp)
  | "!",  x                 => do
    let (a, op) ← l.lowerExpr x
    let zero ← freshTemp
    let out ← freshTemp
    return (a ++ [.const zero 0, .bin out .eq op (.temp zero)], .temp out)
  | "~",  x                 => do
    let (a, op) ← l.lowerExpr x
    let zero ← freshTemp
    let neg ← freshTemp
    let out ← freshTemp
    let ty ← l.promotedExprType x
    let (coerceInstrs, coerceOp) ← l.coerceScalar ty (.temp out)
    return (a ++ [.const zero 0, .bin neg .sub (.temp zero) op, .bin out .sub (.temp neg) (.imm 1)] ++
      coerceInstrs, coerceOp)
  | "*",  .unary "&" value  => l.lowerExpr value
  | "&",  target            => l.lowerLValueAddress target
  | "*",  ptr               => l.readLValueExpr (.unary "*" ptr)
  | "++", target            => l.lowerIncDec true .add target
  | "--", target            => l.lowerIncDec true .sub target
  | op,   x                 =>
    throw ("unsupported expression in lowering: " ++ renderExprTag (.unary op x))

def lowerSize (ty : CType) : ValueM (List Instr × Operand) := do
  let size ← l.typeSize ty
  let temp ← freshTemp
  return ([.const temp size], .temp temp)

def lowerExprStep (expr : Expr) : ValueM (List Instr × Operand) :=
  match expr with
  | .int text                  => return ([], intConstOperand text)
  | .float text                =>
    return ([], .immBytes (floatLiteralBytes (floatLiteralSize text) text))
  | .char text                 => return ([], .imm (charValue text))
  | .string text               => do
    let dataLabel ← freshDataLabel
    addDataItem ⟨dataLabel, (stringBytes text).map .byte⟩
    return ([], .global dataLabel)
  | .var name                  => l.lowerVarExpr name
  | .unary op x                => l.lowerUnaryExpr op x
  | .cast ty x                 => do
    let (a, op) ← l.lowerExpr x
    let (coerceInstrs, coerceOp) ← l.coerceScalar ty op
    return (a ++ coerceInstrs, coerceOp)
  | .sizeofType ty             => l.lowerSize ty
  | .sizeofExpr value          => do
    let mty ← l.exprType value
    let ty ← requireMaybeType "sizeof expression has unknown type" mty
    l.lowerSize ty
  | .cond cond yes no          => l.lowerConditional cond yes no
  | .binary op a b             =>
    if op = "," then do
      let ai ← l.lowerSideEffect a
      let (bi, bo) ← l.lowerExpr b
      return (ai ++ bi, bo)
    else if op = "&&" then l.lowerShortCircuit true a b
    else if op = "||" then l.lowerShortCircuit false a b
    else if op = "+" then l.lowerAddExpr a b
    else if op = "-" then l.lowerSubExpr a b
    else if op = ">>" then l.lowerShiftExpr ">>" a b
    else l.lowerBinaryExpr op a b
  | .index base ix             => l.readLValueExpr (.index base ix)
  | .ptrMember base field      => l.readLValueExpr (.ptrMember base field)
  | .member base field         => l.readLValueExpr (.member base field)
  | .call callee args          => l.lowerCallExpr callee args
  | .assign lhs rhs            => l.lowerAssignment lhs rhs
  | .compoundAssign op lhs rhs => l.lowerCompoundAssignment op lhs rhs
  | .postIncDec "--" target    => l.lowerIncDec false .sub target
  | .postIncDec "++" target    => l.lowerIncDec false .add target
  | expr                       => throw ("unsupported expression in lowering: " ++ renderExprTag expr)

end Lowering

-- The fuel bounds the depth of the recursion.
def lowering : (fuel : Nat) → Lowering
  | 0        => {
      toTyping        := typing 0
      lowerExpr       := fun _ _ => outOfFuel
      lowerSideEffect := fun _ _ => outOfFuel
      lowerLValue     := fun _ _ => outOfFuel
    }
  | fuel + 1 => {
      toTyping        := typing (fuel + 1)
      lowerExpr       := (lowering fuel).lowerExprStep
      lowerSideEffect := (lowering fuel).lowerSideEffectStep
      lowerLValue     := (lowering fuel).lowerLValueStep
    }

end Hcc
