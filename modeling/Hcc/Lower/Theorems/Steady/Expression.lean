import Hcc.Lower.Theorems.Steady.Types

open Stateful

namespace Hcc

section Labels

variable {R : ValueState → ValueState → Prop} [Labels R]

section Data

@[grind ←]
theorem dataSizeTarget_respects (values) : Respects R (dataSizeTarget values) := by
  induction values <;> unfold dataSizeTarget <;> grind

@[grind ←]
theorem takeDataTarget_respects (size values) : Respects R (takeDataTarget size values) := by
  induction values generalizing size <;> unfold takeDataTarget <;> grind

@[grind ←]
theorem padDataTarget_respects (size values) : Respects R (padDataTarget size values) := by
  unfold padDataTarget
  grind

@[grind ←]
theorem staticAddressInitializer_respects (expr) : Respects R (staticAddressInitializer expr) := by
  fun_induction staticAddressInitializer expr <;> grind

@[grind ←]
theorem globalAddressData_respects (name) : Respects R (globalAddressData name) := by
  unfold globalAddressData
  grind

end Data

namespace Typing

variable {t : Typing} (ht : t.AllRespect R)

include ht

@[grind ←]
theorem zeroDataForType_respects (ty) : Respects R (t.zeroDataForType ty) := by
  unfold zeroDataForType
  grind

@[grind ←]
theorem constantData_respects (ty value) : Respects R (t.constantData ty value) := by
  unfold constantData
  grind

@[grind ←]
theorem scalarData_respects (ty value) : Respects R (t.scalarData ty value) := by
  unfold scalarData
  grind

@[grind ←]
theorem scalarConstantData_respects (ty expr) : Respects R (t.scalarConstantData ty expr) := by
  unfold scalarConstantData
  grind

@[grind ←]
theorem scalarFloatData_respects (ty text) : Respects R (t.scalarFloatData ty text) := by
  unfold scalarFloatData
  grind

@[grind ←]
theorem stringDataSize_respects (count text) : Respects R (t.stringDataSize count text) := by
  unfold stringDataSize
  grind

@[grind ←]
theorem globalStringData_respects (ty text) : Respects R (t.globalStringData ty text) := by
  unfold globalStringData
  split
  case h_1 => grind
  case h_2 =>
    split
    case isTrue  => exact .withItem fun _ => .pure
    case isFalse => exact scalarConstantData_respects ht _ _

@[grind ←]
theorem globalAddressExprData_respects (ty value) : Respects R (t.globalAddressExprData ty value) := by
  unfold globalAddressExprData
  grind

@[grind ←]
theorem globalVarData_respects (ty name) : Respects R (t.globalVarData ty name) := by
  unfold globalVarData
  grind

@[grind ←]
theorem unionSizeFromFields_respects (fields) : Respects R (t.unionSizeFromFields fields) := by
  induction fields <;> unfold unionSizeFromFields <;> grind

@[grind ←]
theorem zeroUnionData_respects (fields) : Respects R (t.zeroUnionData fields) := by
  unfold zeroUnionData
  grind

section Aggregates

variable {data : CType → Option Expr → ValueM (List DataValue)}
variable (hd : ∀ ty initExpr, Respects R (data ty initExpr))

include hd

@[grind ←]
theorem globalArrayData_respects (inner exprs) : Respects R (t.globalArrayData data inner exprs) := by
  induction exprs <;> unfold globalArrayData <;> grind

@[grind ←]
theorem structFields_respects (offset fields exprs) :
    Respects R (t.structFields data offset fields exprs) := by
  induction fields generalizing offset exprs <;> unfold structFields <;> grind

@[grind ←]
theorem globalStructData_respects (fields exprs) : Respects R (t.globalStructData data fields exprs) := by
  unfold globalStructData
  grind

@[grind ←]
theorem globalUnionData_respects (fields exprs) : Respects R (t.globalUnionData data fields exprs) := by
  unfold globalUnionData
  grind

@[grind ←]
theorem globalArrayInitData_respects (inner count exprs) :
    Respects R (t.globalArrayInitData data inner count exprs) := by
  unfold globalArrayInitData
  grind

@[grind ←]
theorem globalAggregateInitData_respects (ty exprs) :
    Respects R (t.globalAggregateInitData data ty exprs) := by
  unfold globalAggregateInitData
  grind

@[grind ←]
theorem globalInitListData_respects (ty exprs) : Respects R (t.globalInitListData data ty exprs) := by
  unfold globalInitListData
  grind

@[grind ←]
theorem globalDataExpr_respects (ty expr) : Respects R (t.globalDataExpr data ty expr) := by
  unfold globalDataExpr
  grind

end Aggregates

@[grind ←]
theorem globalDataValue_respects (fuel ty initExpr) : Respects R (t.globalDataValue fuel ty initExpr) := by
  induction fuel generalizing ty initExpr
  case zero       => exact .outOfFuel
  case succ hi    =>
    cases initExpr
    case none => exact zeroDataForType_respects ht ty
    case some => exact globalDataExpr_respects ht hi ty _

@[grind ←]
theorem initializedUnboundedArraySize_respects (inner values initExpr) :
    Respects R (t.initializedUnboundedArraySize inner values initExpr) := by
  unfold initializedUnboundedArraySize
  grind

@[grind ←]
theorem initializedSize_respects (ty values initExpr) :
    Respects R (t.initializedSize ty values initExpr) := by
  unfold initializedSize
  grind

@[grind ←]
theorem globalData_respects (fuel ty initExpr) : Respects R (t.globalData fuel ty initExpr) := by
  unfold globalData
  grind

omit ht in
@[grind ←]
theorem compoundIntegerOp_respects (op commonTy) : Respects R (compoundIntegerOp op commonTy) := by
  unfold compoundIntegerOp
  grind

@[grind ←]
theorem comparisonOperandType_respects (a b) : Respects R (t.comparisonOperandType a b) := by
  unfold comparisonOperandType
  grind

@[grind ←]
theorem comparisonOp_respects (op a b) : Respects R (t.comparisonOp op a b) := by
  unfold comparisonOp
  grind

@[grind ←]
theorem shiftRightOp_respects (expr) : Respects R (t.shiftRightOp expr) := by
  unfold shiftRightOp
  grind

@[grind ←]
theorem indexedElementType_respects (base) : Respects R (t.indexedElementType base) := by
  unfold indexedElementType
  grind

@[grind ←]
theorem incDecStep_respects (target) : Respects R (t.incDecStep target) := by
  unfold incDecStep
  grind

end Typing

end Labels

variable {R : ValueState → ValueState → Prop} [Stable R]

section Objects

@[grind ←]
theorem coerceBool_respects (op) : Respects R (coerceBool op) := by
  unfold coerceBool
  grind

@[grind ←]
theorem maskScalar_respects (size op) : Respects R (maskScalar size op) := by
  unfold maskScalar
  grind

@[grind ←]
theorem signExtendScalar_respects (size op) : Respects R (signExtendScalar size op) := by
  unfold signExtendScalar
  grind

@[grind ←]
theorem scaledIndex_respects (index size) : Respects R (scaledIndex index size) := by
  unfold scaledIndex
  grind

@[grind ←]
theorem scaledOffset_respects (offset size) : Respects R (scaledOffset offset size) := by
  unfold scaledOffset
  grind

@[grind ←]
theorem offsetAddress_respects (base offset) : Respects R (offsetAddress base offset) := by
  unfold offsetAddress
  grind

@[grind ←]
theorem zeroObjectBytes_respects (dst offset steps remaining) :
    Respects R (zeroObjectBytes dst offset steps remaining) := by
  induction steps generalizing offset remaining <;> unfold zeroObjectBytes <;> grind

@[grind ←]
theorem copyObjectBytes_respects (dst src offset steps remaining) :
    Respects R (copyObjectBytes dst src offset steps remaining) := by
  induction steps generalizing offset remaining <;> unfold copyObjectBytes <;> grind

end Objects

namespace Typing

variable {t : Typing} (ht : t.AllRespect R)

include ht

@[grind ←]
theorem coerceScalar_respects (ty op) : Respects R (t.coerceScalar ty op) := by
  unfold coerceScalar
  grind

@[grind ←]
theorem coerceMaybeScalar_respects (mty op) : Respects R (t.coerceMaybeScalar mty op) := by
  unfold coerceMaybeScalar
  grind

@[grind ←]
theorem loadInstr_respects (out ty addr) : Respects R (t.loadInstr out ty addr) := by
  unfold loadInstr
  grind

@[grind ←]
theorem storeInstr_respects (ty addr value) : Respects R (t.storeInstr ty addr value) := by
  unfold storeInstr
  grind

@[grind ←]
theorem copyObject_respects (dst src ty) : Respects R (t.copyObject dst src ty) := by
  unfold copyObject
  grind

@[grind ←]
theorem zeroObject_respects (dst ty) : Respects R (t.zeroObject dst ty) := by
  unfold zeroObject
  grind

@[grind ←]
theorem readLValue_respects (lvalue) : Respects R (t.readLValue lvalue) := by
  unfold readLValue
  grind

@[grind ←]
theorem writeLValue_respects (lvalue value) : Respects R (t.writeLValue lvalue value) := by
  unfold writeLValue
  grind

@[grind ←]
theorem pointerCompoundOffset_respects (op base offset elemTy) :
    Respects R (t.pointerCompoundOffset op base offset elemTy) := by
  unfold pointerCompoundOffset
  grind

@[grind ←]
theorem compoundIntegerBinOp_respects (op targetTy lhsOp rhsExpr rhsOp) :
    Respects R (t.compoundIntegerBinOp op targetTy lhsOp rhsExpr rhsOp) := by
  unfold compoundIntegerBinOp
  grind

@[grind ←]
theorem compoundBinOp_respects (op targetTy lhsOp rhsExpr rhsOp) :
    Respects R (t.compoundBinOp op targetTy lhsOp rhsExpr rhsOp) := by
  unfold compoundBinOp
  grind

end Typing

structure Lowering.AllRespect (R : ValueState → ValueState → Prop) (l : Lowering) : Prop where
  typing          : l.toTyping.AllRespect R
  lowerExpr       : ∀ expr, Respects R (l.lowerExpr expr)
  lowerSideEffect : ∀ expr, Respects R (l.lowerSideEffect expr)
  lowerLValue     : ∀ expr, Respects R (l.lowerLValue expr)

attribute [grind →] Lowering.AllRespect.typing
attribute [grind ←] Lowering.AllRespect.lowerExpr Lowering.AllRespect.lowerSideEffect
  Lowering.AllRespect.lowerLValue

namespace Lowering

variable {l : Lowering} {fuel : Nat} (hl : l.AllRespect R)

@[grind ←]
theorem lowerVarLValue_respects (name) : Respects R (lowerVarLValue name) := by
  unfold lowerVarLValue
  grind

include hl

section Variables

@[grind ←]
theorem lowerTypedGlobalVarExpr_respects (name ty) : Respects R (l.lowerTypedGlobalVarExpr name ty) := by
  unfold lowerTypedGlobalVarExpr
  grind

@[grind ←]
theorem lowerGlobalVarExpr_respects (name) : Respects R (l.lowerGlobalVarExpr name) := by
  unfold lowerGlobalVarExpr
  grind

@[grind ←]
theorem lowerNonLocalVarExpr_respects (name) : Respects R (l.lowerNonLocalVarExpr name) := by
  unfold lowerNonLocalVarExpr
  grind

@[grind ←]
theorem lowerNonConstantVarExpr_respects (name) : Respects R (l.lowerNonConstantVarExpr name) := by
  unfold lowerNonConstantVarExpr
  grind

@[grind ←]
theorem lowerNonBuiltinVarExpr_respects (name) : Respects R (l.lowerNonBuiltinVarExpr name) := by
  unfold lowerNonBuiltinVarExpr
  grind

@[grind ←]
theorem lowerFunctionNameMacro_respects : Respects R l.lowerFunctionNameMacro := by
  unfold lowerFunctionNameMacro
  grind

@[grind ←]
theorem lowerVarExpr_respects (name) : Respects R (l.lowerVarExpr name) := by
  unfold lowerVarExpr
  grind

end Variables

section Addresses

@[grind ←]
theorem lowerNonFunctionAddress_respects (target) : Respects R (l.lowerNonFunctionAddress target) := by
  unfold lowerNonFunctionAddress
  grind

@[grind ←]
theorem lowerVarAddress_respects (name) : Respects R (l.lowerVarAddress name) := by
  unfold lowerVarAddress
  grind

@[grind ←]
theorem lowerLValueAddress_respects (target) : Respects R (l.lowerLValueAddress target) := by
  unfold lowerLValueAddress
  grind

@[grind ←]
theorem lowerLValueStep_respects (target) : Respects R (l.lowerLValueStep target) := by
  unfold lowerLValueStep
  split
  case h_1 => exact lowerVarLValue_respects _
  case h_2 => grind
  case h_3 =>
    exact .bind (hl.lowerExpr _) fun _ => .bind (hl.lowerExpr _) fun _ => by grind
  case h_4 =>
    exact .bind (hl.lowerExpr _) fun _ => .bind (hl.typing.exprType _) fun _ => by grind
  case h_5 =>
    exact .bind (lowerLValueAddress_respects hl _) fun _ => .bind (hl.typing.exprType _) fun _ => by grind
  case h_6 => exact .throw

@[grind ←]
theorem readLValueExpr_respects (target) : Respects R (l.readLValueExpr target) := by
  unfold readLValueExpr
  grind

end Addresses

section Assignments

@[grind ←]
theorem lowerAssignment_respects (lhs rhs) : Respects R (l.lowerAssignment lhs rhs) := by
  unfold lowerAssignment
  grind

@[grind ←]
theorem lowerCompoundAssignment_respects (op lhs rhs) :
    Respects R (l.lowerCompoundAssignment op lhs rhs) := by
  unfold lowerCompoundAssignment
  grind

@[grind ←]
theorem lowerIncDec_respects (isPrefix op target) : Respects R (l.lowerIncDec isPrefix op target) := by
  unfold lowerIncDec
  grind

end Assignments

section Operators

@[grind ←]
theorem lowerComparisonOperands_respects (a b) : Respects R (l.lowerComparisonOperands a b) := by
  unfold lowerComparisonOperands
  grind

@[grind ←]
theorem lowerComparisonExpr_respects (op a b) : Respects R (l.lowerComparisonExpr op a b) := by
  unfold lowerComparisonExpr
  grind

@[grind ←]
theorem lowerBranchComparison_respects (op a b) : Respects R (l.lowerBranchComparison op a b) := by
  unfold lowerBranchComparison
  grind

@[grind ←]
theorem lowerPlainBin_respects (op a b) : Respects R (l.lowerPlainBin op a b) := by
  unfold lowerPlainBin
  grind

@[grind ←]
theorem lowerShiftExpr_respects (op left right) : Respects R (l.lowerShiftExpr op left right) := by
  unfold lowerShiftExpr
  grind

@[grind ←]
theorem lowerPointerDiff_respects (a b elemTy) : Respects R (l.lowerPointerDiff a b elemTy) := by
  unfold lowerPointerDiff
  grind

@[grind ←]
theorem lowerPointerOffset_respects (op ptr offset elemTy) :
    Respects R (l.lowerPointerOffset op ptr offset elemTy) := by
  unfold lowerPointerOffset
  grind

@[grind ←]
theorem lowerAddExpr_respects (a b) : Respects R (l.lowerAddExpr a b) := by
  unfold lowerAddExpr
  grind

@[grind ←]
theorem lowerSubExpr_respects (a b) : Respects R (l.lowerSubExpr a b) := by
  unfold lowerSubExpr
  grind

@[grind ←]
theorem lowerTruthExpr_respects (expr) : Respects R (l.lowerTruthExpr expr) := by
  unfold lowerTruthExpr
  grind

@[grind ←]
theorem lowerShortCircuit_respects (isAnd left right) :
    Respects R (l.lowerShortCircuit isAnd left right) := by
  unfold lowerShortCircuit
  grind

@[grind ←]
theorem lowerDivision_respects (op a b) : Respects R (l.lowerDivision op a b) := by
  unfold lowerDivision
  grind

@[grind ←]
theorem lowerBinaryExpr_respects (op a b) : Respects R (l.lowerBinaryExpr op a b) := by
  unfold lowerBinaryExpr
  grind

@[grind ←]
theorem lowerConditional_respects (cond yes no) : Respects R (l.lowerConditional cond yes no) := by
  unfold lowerConditional
  grind

end Operators

section Calls

@[grind ←]
theorem lowerCallArg_respects (expr) : Respects R (l.lowerCallArg expr) := by
  refine .bind (hl.lowerExpr _) fun _ => .bind (hl.typing.exprType _) fun mty => ?_
  cases mty
  case none => exact .pure
  case some =>
    refine .bind (aggregateFields_respects _) fun fields => ?_
    cases fields <;> grind

@[grind ←]
theorem lowerCallArgs_respects (args) : Respects R (l.lowerCallArgs args) := by
  unfold lowerCallArgs
  grind

@[grind ←]
theorem lowerDirectCallExpr_respects (name args) : Respects R (l.lowerDirectCallExpr name args) := by
  unfold lowerDirectCallExpr
  grind

@[grind ←]
theorem lowerDirectSideEffect_respects (name args) : Respects R (l.lowerDirectSideEffect name args) := by
  unfold lowerDirectSideEffect
  grind

@[grind ←]
theorem lowerIndirectCallInstrs_respects (result callee args) :
    Respects R (l.lowerIndirectCallInstrs result callee args) := by
  unfold lowerIndirectCallInstrs
  grind

@[grind ←]
theorem lowerIndirectCall_respects (callee args) : Respects R (l.lowerIndirectCall callee args) := by
  unfold lowerIndirectCall
  grind

@[grind ←]
theorem lowerCallExpr_respects (callee args) : Respects R (l.lowerCallExpr callee args) := by
  unfold lowerCallExpr
  grind

@[grind ←]
theorem lowerCallSideEffect_respects (callee args) : Respects R (l.lowerCallSideEffect callee args) := by
  unfold lowerCallSideEffect
  grind

end Calls

@[grind ←]
theorem lowerSideEffectStep_respects (expr) : Respects R (l.lowerSideEffectStep expr) := by
  unfold lowerSideEffectStep
  grind

@[grind ←]
theorem lowerUnaryExpr_respects (op x) : Respects R (l.lowerUnaryExpr op x) := by
  unfold lowerUnaryExpr
  grind

@[grind ←]
theorem lowerSize_respects (ty) : Respects R (l.lowerSize ty) := by
  unfold lowerSize
  grind

@[grind ←]
theorem lowerExprStep_respects (expr) : Respects R (l.lowerExprStep expr) := by
  unfold lowerExprStep
  split
  case h_4 => exact .withItem fun _ => .pure
  all_goals grind

section Declarations

@[grind ←]
theorem localDataItem_respects (ty initExpr) : Respects R (l.localDataItem fuel ty initExpr) :=
  .labelled (Typing.globalData_respects hl.typing fuel ty initExpr) fun _ _ => .pure

@[grind ←]
theorem lowerAggregateElementScalarWrite_respects (addr fieldTy expr) :
    Respects R (l.lowerAggregateElementScalarWrite addr fieldTy expr) := by
  fun_induction lowerAggregateElementScalarWrite l addr fieldTy expr <;> grind

@[grind ←]
theorem lowerScalarDecl_respects (ty temp initExpr) : Respects R (l.lowerScalarDecl ty temp initExpr) := by
  unfold lowerScalarDecl
  grind

section

variable {list : Operand → CType → List Expr → ValueM (List Instr)}
variable (hi : ∀ dst ty exprs, Respects R (list dst ty exprs))

include hi

@[grind ←]
theorem lowerAggregateElementAggregateWrite_respects (addr fieldTy expr) :
    Respects R (l.lowerAggregateElementAggregateWrite fuel list addr fieldTy expr) := by
  unfold lowerAggregateElementAggregateWrite
  grind

@[grind ←]
theorem lowerAggregateElementWrite_respects (dst offset fieldTy expr) :
    Respects R (l.lowerAggregateElementWrite fuel list dst offset fieldTy expr) := by
  unfold lowerAggregateElementWrite
  grind

@[grind ←]
theorem lowerArrayInitWrites_respects (dst inner index exprs) :
    Respects R (l.lowerArrayInitWrites fuel list dst inner index exprs) := by
  induction exprs generalizing index <;> unfold lowerArrayInitWrites <;> grind

@[grind ←]
theorem lowerStructInitWrites_respects (dst offset fields exprs) :
    Respects R (l.lowerStructInitWrites fuel list dst offset fields exprs) := by
  induction fields generalizing offset exprs <;> unfold lowerStructInitWrites <;> grind

@[grind ←]
theorem lowerUnionInitWrites_respects (dst fields exprs) :
    Respects R (l.lowerUnionInitWrites fuel list dst fields exprs) := by
  unfold lowerUnionInitWrites
  grind

@[grind ←]
theorem lowerAggregateInitListStep_respects (dst ty exprs) :
    Respects R (l.lowerAggregateInitListStep fuel list dst ty exprs) := by
  unfold lowerAggregateInitListStep
  grind

end

@[grind ←]
theorem lowerAggregateInitList_respects (depth dst ty exprs) :
    Respects R (l.lowerAggregateInitList fuel depth dst ty exprs) := by
  induction depth generalizing dst ty exprs
  case zero    => exact .outOfFuel
  case succ hi => exact lowerAggregateInitListStep_respects hl hi dst ty exprs

@[grind ←]
theorem lowerAggregateInitWrites_respects (dst ty initExpr) :
    Respects R (l.lowerAggregateInitWrites fuel dst ty initExpr) := by
  unfold lowerAggregateInitWrites
  grind

@[grind ←]
theorem localArrayTemplateData_respects (ty initExpr) :
    Respects R (l.localArrayTemplateData fuel ty initExpr) := by
  unfold localArrayTemplateData
  grind

@[grind ←]
theorem localNonArrayTemplateData_respects (ty initExpr) :
    Respects R (l.localNonArrayTemplateData fuel ty initExpr) := by
  unfold localNonArrayTemplateData
  grind

@[grind ←]
theorem localAggregateTemplateData_respects (ty initExpr) :
    Respects R (l.localAggregateTemplateData fuel ty initExpr) := by
  unfold localAggregateTemplateData
  grind

@[grind ←]
theorem lowerAggregateDeclRuntime_respects (ty temp initExpr) :
    Respects R (l.lowerAggregateDeclRuntime fuel ty temp initExpr) := by
  unfold lowerAggregateDeclRuntime
  grind

@[grind ←]
theorem lowerAggregateDeclInit_respects (ty temp initExpr) :
    Respects R (l.lowerAggregateDeclInit fuel ty temp initExpr) := by
  unfold lowerAggregateDeclInit
  grind

@[grind ←]
theorem lowerAggregateDecl_respects (ty temp initExpr) :
    Respects R (l.lowerAggregateDecl fuel ty temp initExpr) := by
  unfold lowerAggregateDecl
  grind

end Declarations

end Lowering

theorem lowering_respects (fuel) : (lowering fuel).AllRespect R := by
  induction fuel
  case zero      => exact ⟨typing_respects 0, fun _ => .outOfFuel, fun _ => .outOfFuel, fun _ => .outOfFuel⟩
  case succ _ hi => exact ⟨typing_respects _, Lowering.lowerExprStep_respects hi,
    Lowering.lowerSideEffectStep_respects hi, Lowering.lowerLValueStep_respects hi⟩

abbrev Lowering.AllSteady (l : Lowering) : Prop :=
  l.AllRespect ValueState.Extends

theorem lowering_steady (fuel) : (lowering fuel).AllSteady :=
  lowering_respects fuel

end Hcc
