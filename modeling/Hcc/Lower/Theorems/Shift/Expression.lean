import Hcc.Lower.Expression
import Hcc.Lower.Theorems.Shift.Objects

open Stateful

namespace Hcc

variable {σ : Shift} {t t' : Typing} {op op' : Operand} {ty : CType} {name : String} {a b : Expr}

namespace Typing

section Types

variable (ht : t.AllSame t')

include ht

theorem comparisonOperandType_same : Same (t.comparisonOperandType a b) (t'.comparisonOperandType a b) := by
  refine .bind (ht.exprType _) fun _ => .bind (ht.exprType _) fun _ => ?_
  split
  case h_1 => exact .pure
  case h_2 =>
    split
    case h_1 => exact .pure
    case h_2 => exact usualArithmeticType_same ht _ _

theorem comparisonOp_same {op : String} : Same (t.comparisonOp op a b) (t'.comparisonOp op a b) :=
  .bind (comparisonOperandType_same ht) fun _ => .pure

theorem shiftRightOp_same : Same (t.shiftRightOp a) (t'.shiftRightOp a) :=
  .bind (promotedExprType_same ht _) fun _ => .pure

theorem indexedElementType_same : Same (t.indexedElementType a) (t'.indexedElementType a) := by
  refine .bind (ht.exprType _) fun _ => ?_
  split
  case h_1 => exact .pure
  case h_2 => exact .pure
  case h_3 => exact .throw

theorem incDecStep_same : Same (t.incDecStep a) (t'.incDecStep a) := by
  refine .bind (ht.exprType _) fun _ => ?_
  split
  case h_1 => exact ht.typeSize _
  case h_2 => exact .pure

omit ht in
theorem compoundIntegerOp_same {op : String} : Same (compoundIntegerOp op ty) (compoundIntegerOp op ty) := by
  unfold compoundIntegerOp
  repeat' split
  all_goals first
    | exact .pure
    | exact .throw

end Types

section Compound

variable (ht : t.AllSame t')

include ht

theorem pointerCompoundOffset_moves {iop : BinOp} :
    Moves σ (t.pointerCompoundOffset iop op op' ty)
      (t'.pointerCompoundOffset iop (op.rename σ.temp) (op'.rename σ.temp) ty) := by
  refine .same (ht.typeSize _) fun size => ?_
  split
  case isTrue  => exact .bind freshTemp_moves fun _ => .pure rfl
  case isFalse => exact .bind freshTemp_moves fun _ => .bind freshTemp_moves fun _ => .pure rfl

theorem compoundIntegerBinOp_moves {iop : String} :
    Moves σ (t.compoundIntegerBinOp iop ty op a op')
      (t'.compoundIntegerBinOp iop ty (op.rename σ.temp) a (op'.rename σ.temp)) := by
  refine .same (promoteIntegerType_same ht _) fun _ => .same (promotedExprType_same ht _) fun _ => ?_
  refine .same (?_ : Same (ite ..) (ite ..)) fun _ => ?_
  case refine_1 =>
    split
    case isTrue  => exact .pure
    case isFalse => exact usualArithmeticTypes_same ht _ _
  case refine_2 =>
    refine .bind (coerceScalar_moves ht) fun (_, _) => .bind (coerceScalar_moves ht) fun (_, _) => ?_
    exact .same compoundIntegerOp_same fun _ => .bind freshTemp_moves fun _ => .pure <| by
      simp [Instr.rename]; rfl

theorem compoundBinOp_moves {iop : String} :
    Moves σ (t.compoundBinOp iop ty op a op')
      (t'.compoundBinOp iop ty (op.rename σ.temp) a (op'.rename σ.temp)) := by
  unfold compoundBinOp
  split
  case h_1 =>
    split_ifs
    case pos  => exact pointerCompoundOffset_moves ht
    case pos  => exact pointerCompoundOffset_moves ht
    case neg  => exact compoundIntegerBinOp_moves ht
  case h_2 => exact compoundIntegerBinOp_moves ht

end Compound

end Typing
structure Lowering.AllMove (σ : Shift) (l l' : Lowering) : Prop where
  typing          : l.toTyping.AllSame l'.toTyping
  lowerExpr       : ∀ {expr}, Moves σ (l.lowerExpr expr) (l'.lowerExpr expr)
  lowerSideEffect : ∀ {expr}, Moves σ (l.lowerSideEffect expr) (l'.lowerSideEffect expr)
  lowerLValue     : ∀ {expr}, Moves σ (l.lowerLValue expr) (l'.lowerLValue expr)

namespace Lowering

variable {l l' : Lowering} (hl : l.AllMove σ l')

include hl

section Variables

theorem lowerTypedGlobalVarExpr_moves :
    Moves σ (l.lowerTypedGlobalVarExpr name ty) (l'.lowerTypedGlobalVarExpr name ty) := by
  unfold lowerTypedGlobalVarExpr
  split
  case h_1 => exact .pure rfl
  case h_2 =>
    refine .same (isAggregateTypeM_same _) fun aggregate => ?_
    split
    case isTrue  => exact .pure rfl
    case isFalse =>
      exact .bind freshTemp_moves fun _ => .bind (Typing.loadInstr_moves hl.typing) fun _ => .pure rfl

theorem lowerGlobalVarExpr_moves : Moves σ (l.lowerGlobalVarExpr name) (l'.lowerGlobalVarExpr name) := by
  refine .same (lookupGlobalType_same _) fun ty => ?_
  cases ty
  case none => exact .throw
  case some => exact lowerTypedGlobalVarExpr_moves hl

theorem lowerNonLocalVarExpr_moves :
    Moves σ (l.lowerNonLocalVarExpr name) (l'.lowerNonLocalVarExpr name) := by
  refine .same (lookupFunction_same _) fun function => ?_
  split
  case isTrue  => exact .pure rfl
  case isFalse => exact lowerGlobalVarExpr_moves hl

theorem lowerNonConstantVarExpr_moves :
    Moves σ (l.lowerNonConstantVarExpr name) (l'.lowerNonConstantVarExpr name) := by
  refine .bind lookupVarMaybe_moves fun temp => ?_
  cases temp
  case none => exact lowerNonLocalVarExpr_moves hl
  case some =>
    refine .same (lookupVarType_same _) fun ty => .same (requireMaybeType_same _ _) fun _ => ?_
    exact Typing.coerceScalar_moves hl.typing

theorem lowerNonBuiltinVarExpr_moves :
    Moves σ (l.lowerNonBuiltinVarExpr name) (l'.lowerNonBuiltinVarExpr name) := by
  refine .same (lookupConstant_same _) fun value => ?_
  cases value
  case none => exact lowerNonConstantVarExpr_moves hl
  case some => exact .pure rfl

theorem lowerFunctionNameMacro_moves : Moves σ l.lowerFunctionNameMacro l'.lowerFunctionNameMacro := by
  refine .same currentFunctionName_same fun name => ?_
  cases name
  case none => exact .pure rfl
  case some => exact hl.lowerExpr

theorem lowerVarExpr_moves : Moves σ (l.lowerVarExpr name) (l'.lowerVarExpr name) := by
  unfold lowerVarExpr
  split
  case isTrue  => exact lowerFunctionNameMacro_moves hl
  case isFalse =>
    split
    case h_1 => exact .pure rfl
    case h_2 => exact lowerNonBuiltinVarExpr_moves hl

end Variables

section Addresses

theorem lowerNonFunctionAddress_moves :
    Moves σ (l.lowerNonFunctionAddress a) (l'.lowerNonFunctionAddress a) := by
  refine .bind hl.lowerLValue fun (_, lvalue) => ?_
  cases lvalue
  case lAddress => exact .pure rfl
  case lLocal =>
    refine .same (isAggregateTypeM_same _) fun aggregate => ?_
    split
    case isTrue  => exact .pure rfl
    case isFalse => exact .bind freshTemp_moves fun _ => .pure <| by simp [Instr.rename]; rfl

theorem lowerVarAddress_moves : Moves σ (l.lowerVarAddress name) (l'.lowerVarAddress name) := by
  refine .bind lookupVarMaybe_moves fun temp => ?_
  cases temp
  case some => exact lowerNonFunctionAddress_moves hl
  case none =>
    refine .same (lookupFunction_same _) fun function => ?_
    split
    case isTrue  => exact .pure rfl
    case isFalse => exact lowerNonFunctionAddress_moves hl

theorem lowerLValueAddress_moves : Moves σ (l.lowerLValueAddress a) (l'.lowerLValueAddress a) := by
  unfold lowerLValueAddress
  split
  case h_1 => exact lowerVarAddress_moves hl
  case h_2 => exact lowerNonFunctionAddress_moves hl

omit hl in
theorem lowerVarLValue_moves : Moves σ (lowerVarLValue name) (lowerVarLValue name) := by
  refine .bind lookupVarMaybe_moves fun temp => ?_
  cases temp
  case some =>
    exact .same (lookupVarType_same _) fun _ => .same (requireMaybeType_same _ _) fun _ => .pure rfl
  case none =>
    exact .same (lookupGlobalType_same _) fun _ => .same (requireMaybeType_same _ _) fun _ => .pure rfl

theorem lowerLValueStep_moves : Moves σ (l.lowerLValueStep a) (l'.lowerLValueStep a) := by
  unfold lowerLValueStep
  split
  case h_1 => exact lowerVarLValue_moves
  case h_2 =>
    refine .bind hl.lowerExpr ?_
    rintro ⟨_, _⟩
    refine .same (hl.typing.exprType _) fun _ => ?_
    exact .same (requireMaybeType_same _ _) fun _ => .pure rfl
  case h_3 =>
    refine .bind hl.lowerExpr ?_
    rintro ⟨_, _⟩
    refine .bind hl.lowerExpr ?_
    rintro ⟨_, _⟩
    refine .same (Typing.indexedElementType_same hl.typing) fun _ => .same (hl.typing.typeSize _) fun _ => ?_
    refine .bind scaledIndex_moves ?_
    rintro ⟨_, _⟩
    exact .bind freshTemp_moves fun _ => .pure <| by simp [Instr.rename, LValue.rename, Operand.rename]
  case h_4 =>
    refine .bind hl.lowerExpr ?_
    rintro ⟨_, _⟩
    refine .same (hl.typing.exprType _) fun _ => .same (Typing.memberInfo_same hl.typing _ _) ?_
    rintro ⟨_, _⟩
    refine .bind offsetAddress_moves ?_
    rintro ⟨_, _⟩
    exact .pure <| by simp [LValue.rename]
  case h_5 =>
    refine .bind (lowerLValueAddress_moves hl) ?_
    rintro ⟨_, _⟩
    refine .same (hl.typing.exprType _) fun _ => ?_
    refine .same (requireMaybeType_same _ _) fun _ => .same (Typing.memberInfo_same hl.typing _ _) ?_
    rintro ⟨_, _⟩
    refine .bind offsetAddress_moves ?_
    rintro ⟨_, _⟩
    exact .pure <| by simp [LValue.rename]
  case h_6 => exact .throw

theorem readLValueExpr_moves : Moves σ (l.readLValueExpr a) (l'.readLValueExpr a) :=
  .bind hl.lowerLValue fun (_, _) => .bind (Typing.readLValue_moves hl.typing) fun (_, _) => .pure <| by simp

end Addresses

section Assignments

omit hl in
@[simp]
theorem lValueType_rename {f : Temp → Temp} {lvalue : LValue} :
    lValueType (lvalue.rename f) = lValueType lvalue := by
  cases lvalue <;> rfl

theorem lowerAssignment_moves : Moves σ (l.lowerAssignment a b) (l'.lowerAssignment a b) := by
  refine .bind hl.lowerLValue fun (_, lvalue) => .bind hl.lowerExpr fun (_, _) => ?_
  simp only [rename_pair, rename_lvalue, lValueType_rename]
  refine .bind (Typing.coerceScalar_moves hl.typing) fun (_, _) => ?_
  exact .bind (Typing.writeLValue_moves hl.typing) fun _ => .pure <| by simp

theorem lowerCompoundAssignment_moves {op : String} :
    Moves σ (l.lowerCompoundAssignment op a b) (l'.lowerCompoundAssignment op a b) := by
  refine .bind hl.lowerLValue fun (_, lvalue) => ?_
  refine .bind (Typing.readLValue_moves hl.typing) fun (_, _) => .bind hl.lowerExpr fun (_, _) => ?_
  simp only [rename_pair, rename_lvalue, lValueType_rename]
  refine .bind (Typing.compoundBinOp_moves hl.typing) fun (_, _) => ?_
  refine .bind (Typing.coerceScalar_moves hl.typing) fun (_, _) => ?_
  exact .bind (Typing.writeLValue_moves hl.typing) fun _ => .pure <| by simp

theorem lowerIncDec_moves {isPrefix : Bool} {iop : BinOp} :
    Moves σ (l.lowerIncDec isPrefix iop a) (l'.lowerIncDec isPrefix iop a) := by
  refine .bind hl.lowerLValue fun (_, lvalue) => ?_
  refine .bind (Typing.readLValue_moves hl.typing) fun (_, _) => .bind freshTemp_moves fun out => ?_
  refine .same (Typing.incDecStep_same hl.typing) fun step => ?_
  simp only [rename_lvalue, lValueType_rename]
  split
  case isTrue =>
    refine .bind (Typing.coerceScalar_temp_moves hl.typing) fun (_, _) => ?_
    exact .bind (Typing.writeLValue_moves hl.typing) fun _ => .pure <| by simp [Instr.rename, Operand.rename]
  case isFalse =>
    refine .bind freshTemp_moves fun old => ?_
    refine .bind (Typing.writeLValue_temp_moves hl.typing) fun _ => .pure ?_
    simp [Instr.rename, Operand.rename]

end Assignments

section Operators

theorem lowerComparisonOperands_moves :
    Moves σ (l.lowerComparisonOperands a b) (l'.lowerComparisonOperands a b) := by
  refine .bind hl.lowerExpr fun (_, _) => .bind hl.lowerExpr fun (_, _) => ?_
  refine .same (Typing.comparisonOperandType_same hl.typing) fun _ => ?_
  refine .bind (Typing.coerceScalar_moves hl.typing) fun (_, _) => ?_
  exact .bind (Typing.coerceScalar_moves hl.typing) fun (_, _) => .pure <| by simp

theorem lowerComparisonExpr_moves {op : String} :
    Moves σ (l.lowerComparisonExpr op a b) (l'.lowerComparisonExpr op a b) := by
  refine .bind (lowerComparisonOperands_moves hl) fun (_, _, _) => .bind freshTemp_moves fun _ => ?_
  exact .same (Typing.comparisonOp_same hl.typing) fun _ => .pure <| by simp [Instr.rename, Operand.rename]

theorem lowerBranchComparison_moves {op : String} :
    Moves σ (l.lowerBranchComparison op a b) (l'.lowerBranchComparison op a b) := by
  refine .bind (lowerComparisonOperands_moves hl) fun (_, _, _) => ?_
  refine .same (?_ : Same (ite ..) (ite ..)) fun _ => .pure <| by simp
  split_ifs
  case neg => exact Typing.comparisonOp_same hl.typing
  all_goals exact .pure

theorem lowerPlainBin_moves {iop : BinOp} : Moves σ (l.lowerPlainBin iop a b) (l'.lowerPlainBin iop a b) := by
  refine .bind hl.lowerExpr fun (_, _) => .bind hl.lowerExpr fun (_, _) => ?_
  refine .same (?_ : Same (ite ..) (ite ..)) fun _ => ?_
  case refine_1 =>
    split
    case isTrue  => exact Typing.comparisonOperandType_same hl.typing
    case isFalse => exact Typing.usualArithmeticType_same hl.typing _ _
  case refine_2 =>
    refine .bind (Typing.coerceScalar_moves hl.typing) fun (_, _) => ?_
    refine .bind (Typing.coerceScalar_moves hl.typing) fun (_, _) => .bind freshTemp_moves fun out => ?_
    refine .bind (?_ : Moves σ (ite ..) (ite ..)) fun (_, _) => .pure <| by
      simp only [rename_pair, List.map_append, rename_list, List.map_cons, List.map_nil, Prod.mk.injEq]
      exact ⟨rfl, rfl⟩
    split
    case isTrue  => exact .pure rfl
    case isFalse => exact Typing.coerceScalar_temp_moves hl.typing

theorem lowerShiftExpr_moves {op : String} :
    Moves σ (l.lowerShiftExpr op a b) (l'.lowerShiftExpr op a b) := by
  refine .bind hl.lowerExpr fun (_, _) => .bind hl.lowerExpr fun (_, _) => .bind freshTemp_moves fun out => ?_
  refine .same (?_ : Same (ite ..) (ite ..)) fun _ => ?_
  case refine_1 =>
    split
    case isTrue  => exact Typing.shiftRightOp_same hl.typing
    case isFalse => exact .pure
  case refine_2 =>
    refine .same (hl.typing.exprType _) fun _ => ?_
    refine .bind (Typing.coerceMaybeScalar_temp_moves hl.typing) fun (_, _) => .pure ?_
    simp [Instr.rename]

theorem lowerPointerDiff_moves : Moves σ (l.lowerPointerDiff a b ty) (l'.lowerPointerDiff a b ty) := by
  refine .bind hl.lowerExpr fun (_, _) => .bind hl.lowerExpr fun (_, _) => ?_
  refine .bind freshTemp_moves fun _ => .bind freshTemp_moves fun _ => .same (hl.typing.typeSize _) fun _ => ?_
  exact .pure <| by simp [Instr.rename, Operand.rename]

theorem lowerPointerOffset_moves {iop : BinOp} :
    Moves σ (l.lowerPointerOffset iop a b ty) (l'.lowerPointerOffset iop a b ty) := by
  refine .bind hl.lowerExpr fun (_, _) => .bind hl.lowerExpr fun (_, _) => ?_
  refine .same (hl.typing.typeSize _) fun _ => .bind scaledOffset_moves fun (_, _) => ?_
  exact .bind freshTemp_moves fun _ => .pure <| by simp [Instr.rename, Operand.rename]

theorem lowerAddExpr_moves : Moves σ (l.lowerAddExpr a b) (l'.lowerAddExpr a b) := by
  refine .same (hl.typing.exprType _) fun _ => .same (hl.typing.exprType _) fun _ => ?_
  split
  case h_1 => exact lowerPointerOffset_moves hl
  case h_2 =>
    split
    case h_1 => exact lowerPointerOffset_moves hl
    case h_2 => exact lowerPlainBin_moves hl

theorem lowerSubExpr_moves : Moves σ (l.lowerSubExpr a b) (l'.lowerSubExpr a b) := by
  refine .same (hl.typing.exprType _) fun _ => .same (hl.typing.exprType _) fun _ => ?_
  split
  case h_1 =>
    split
    case h_1 => exact lowerPointerDiff_moves hl
    case h_2 => exact lowerPointerOffset_moves hl
  case h_2 => exact lowerPlainBin_moves hl

theorem lowerTruthExpr_moves : Moves σ (l.lowerTruthExpr a) (l'.lowerTruthExpr a) := by
  refine .bind hl.lowerExpr fun (_, _) => (?_ : Moves σ (ite ..) (ite ..))
  split
  case isTrue  => exact .pure rfl
  case isFalse => exact .bind freshTemp_moves fun _ => .pure <| by simp [Instr.rename, Operand.rename]

theorem lowerShortCircuit_moves {isAnd : Bool} :
    Moves σ (l.lowerShortCircuit isAnd a b) (l'.lowerShortCircuit isAnd a b) := by
  refine .bind hl.lowerExpr fun (_, _) => .bind (lowerTruthExpr_moves hl) fun (_, _) => ?_
  refine .bind freshTemp_moves fun _ => .pure ?_
  split <;> simp [Instr.rename, Operand.rename, renameInstrs_eq_map]

theorem lowerDivision_moves {op : String} : Moves σ (l.lowerDivision op a b) (l'.lowerDivision op a b) :=
  .same (Typing.usualArithmeticType_same hl.typing _ _) fun _ => lowerPlainBin_moves hl

theorem lowerBinaryExpr_moves {op : String} :
    Moves σ (l.lowerBinaryExpr op a b) (l'.lowerBinaryExpr op a b) := by
  unfold lowerBinaryExpr
  split
  case isTrue => exact lowerComparisonExpr_moves hl
  case isFalse =>
    split
    case isTrue => exact lowerDivision_moves hl
    case isFalse =>
      split
      case h_1 =>
        split
        case isTrue  => exact lowerShiftExpr_moves hl
        case isFalse => exact lowerPlainBin_moves hl
      case h_2 => exact .throw

theorem lowerConditional_moves {cond : Expr} :
    Moves σ (l.lowerConditional cond a b) (l'.lowerConditional cond a b) := by
  refine .bind hl.lowerExpr fun (_, _) => .bind hl.lowerExpr fun (_, _) => .bind hl.lowerExpr fun (_, _) => ?_
  refine .same (Typing.conditionalType_same hl.typing _ _) fun _ => ?_
  refine .bind (Typing.coerceMaybeScalar_moves hl.typing) fun (_, _) => ?_
  refine .bind (Typing.coerceMaybeScalar_moves hl.typing) fun (_, _) => ?_
  exact .bind freshTemp_moves fun _ => .pure <| by simp [Instr.rename, Operand.rename, renameInstrs_eq_map]

end Operators

section Calls

variable {args : List Expr} {callee : Expr}

theorem lowerCallArg_moves : Moves σ (l.lowerCallArg a) (l'.lowerCallArg a) := by
  refine .bind hl.lowerExpr fun (_, _) => .same (hl.typing.exprType _) fun ty => ?_
  cases ty
  case none => exact .pure rfl
  case some =>
    refine .same (aggregateFields_same _) fun fields => ?_
    cases fields
    case none => exact .pure rfl
    case some =>
      refine .same (hl.typing.typeSize _) fun _ => .bind freshTemp_moves fun temp => ?_
      refine .bind (Typing.copyObject_temp_moves hl.typing) fun _ => .pure ?_
      simp [Instr.rename, Operand.rename]

theorem lowerCallArgs_moves : Moves σ (l.lowerCallArgs args) (l'.lowerCallArgs args) := by
  refine .bind (.mapM (fun _ => lowerCallArg_moves hl) args) fun lowered => .pure ?_
  simp [List.flatMap_map, List.map_flatMap]

theorem lowerDirectCallExpr_moves :
    Moves σ (l.lowerDirectCallExpr name args) (l'.lowerDirectCallExpr name args) :=
  .bind (lowerCallArgs_moves hl) fun (_, _) => .bind freshTemp_moves fun _ => .pure <| by
    simp [Instr.rename, Operand.rename]

theorem lowerDirectSideEffect_moves :
    Moves σ (l.lowerDirectSideEffect name args) (l'.lowerDirectSideEffect name args) :=
  .bind (lowerCallArgs_moves hl) fun (_, _) => .pure <| by simp [Instr.rename]

theorem lowerIndirectCallInstrs_moves (result : Option Temp) :
    Moves σ (l.lowerIndirectCallInstrs result callee args)
      (l'.lowerIndirectCallInstrs (result.map σ.temp) callee args) :=
  .bind hl.lowerExpr fun (_, _) => .bind (lowerCallArgs_moves hl) fun (_, _) => .pure <| by
    simp [Instr.rename]

theorem lowerIndirectCall_moves : Moves σ (l.lowerIndirectCall callee args) (l'.lowerIndirectCall callee args) :=
  .bind freshTemp_moves fun out => .bind (lowerIndirectCallInstrs_moves hl <| some out) fun _ =>
    .pure <| by simp [Operand.rename]

theorem lowerCallExpr_moves : Moves σ (l.lowerCallExpr callee args) (l'.lowerCallExpr callee args) := by
  unfold lowerCallExpr
  split
  case h_1 =>
    refine .same (lookupFunction_same _) fun function => ?_
    split
    case isTrue  => exact lowerDirectCallExpr_moves hl
    case isFalse => exact lowerIndirectCall_moves hl
  case h_2 => exact lowerIndirectCall_moves hl

theorem lowerCallSideEffect_moves :
    Moves σ (l.lowerCallSideEffect callee args) (l'.lowerCallSideEffect callee args) := by
  unfold lowerCallSideEffect
  split
  case h_1 =>
    split_ifs
    case pos => exact .pure rfl
    case neg => exact .throw
    case pos => exact .pure rfl
    case neg =>
      refine .same (lookupFunction_same _) fun function => ?_
      split
      case isTrue  => exact lowerDirectSideEffect_moves hl
      case isFalse => exact lowerIndirectCallInstrs_moves hl none
  case h_2 => exact lowerIndirectCallInstrs_moves hl none

end Calls

section Steps

theorem lowerSideEffectStep_moves : Moves σ (l.lowerSideEffectStep a) (l'.lowerSideEffectStep a) := by
  unfold lowerSideEffectStep
  split
  case h_1 => exact lowerCallSideEffect_moves hl
  case h_2 => exact .first <| lowerAssignment_moves hl
  case h_3 => exact .first <| lowerCompoundAssignment_moves hl
  case h_4 => exact .first <| lowerIncDec_moves hl
  case h_5 => exact .first <| lowerIncDec_moves hl
  case h_6 => exact .first hl.lowerExpr

theorem lowerUnaryExpr_moves {op : String} : Moves σ (l.lowerUnaryExpr op a) (l'.lowerUnaryExpr op a) := by
  unfold lowerUnaryExpr
  split
  case h_1 =>
    refine .bind hl.lowerExpr fun (_, _) => .same (Typing.promotedExprType_same hl.typing _) fun _ => ?_
    exact .bind (Typing.coerceScalar_moves hl.typing) fun (_, _) => .pure <| by simp
  case h_2 =>
    refine .bind hl.lowerExpr fun (_, _) => .bind freshTemp_moves fun _ => .bind freshTemp_moves fun out => ?_
    refine .same (Typing.promotedExprType_same hl.typing _) fun _ => ?_
    refine .bind (Typing.coerceScalar_temp_moves hl.typing) fun (_, _) => .pure ?_
    simp [Instr.rename, Operand.rename]
  case h_3 =>
    refine .bind hl.lowerExpr fun (_, _) => .bind freshTemp_moves fun _ => .bind freshTemp_moves fun _ => ?_
    exact .pure <| by simp [Instr.rename, Operand.rename]
  case h_4 =>
    refine .bind hl.lowerExpr fun (_, _) => .bind freshTemp_moves fun _ => .bind freshTemp_moves fun _ => ?_
    refine .bind freshTemp_moves fun out => .same (Typing.promotedExprType_same hl.typing _) fun _ => ?_
    refine .bind (Typing.coerceScalar_temp_moves hl.typing) fun (_, _) => .pure ?_
    simp [Instr.rename, Operand.rename]
  case h_5 => exact hl.lowerExpr
  case h_6 => exact lowerLValueAddress_moves hl
  case h_7 => exact readLValueExpr_moves hl
  case h_8 => exact lowerIncDec_moves hl
  case h_9 => exact lowerIncDec_moves hl
  case h_10 => exact .throw

theorem lowerSize_moves : Moves σ (l.lowerSize ty) (l'.lowerSize ty) :=
  .same (hl.typing.typeSize _) fun _ => .bind freshTemp_moves fun _ => .pure <| by
    simp [Instr.rename, Operand.rename]

omit hl in
theorem intConstOperand_rename {f : Temp → Temp} {text : List Char} :
    (intConstOperand text).rename f = intConstOperand text := by
  unfold intConstOperand
  split <;> rfl

theorem lowerExprStep_moves : Moves σ (l.lowerExprStep a) (l'.lowerExprStep a) := by
  unfold lowerExprStep
  split
  case h_1 => exact .pure <| by simp [intConstOperand_rename]
  case h_2 => exact .pure rfl
  case h_3 => exact .pure rfl
  case h_4 => exact .same freshDataLabel_same fun _ => .same (addDataItem_same _) fun _ => .pure rfl
  case h_5 => exact lowerVarExpr_moves hl
  case h_6 => exact lowerUnaryExpr_moves hl
  case h_7 =>
    refine .bind hl.lowerExpr fun (_, _) => ?_
    exact .bind (Typing.coerceScalar_moves hl.typing) fun (_, _) => .pure <| by simp
  case h_8 => exact lowerSize_moves hl
  case h_9 =>
    refine .same (hl.typing.exprType _) fun _ => .same (requireMaybeType_same _ _) fun _ => ?_
    exact lowerSize_moves hl
  case h_10 => exact lowerConditional_moves hl
  case h_11 =>
    split_ifs
    case pos => exact .bind hl.lowerSideEffect fun _ => .bind hl.lowerExpr fun (_, _) => .pure <| by simp
    case pos => exact lowerShortCircuit_moves hl
    case pos => exact lowerShortCircuit_moves hl
    case pos => exact lowerAddExpr_moves hl
    case pos => exact lowerSubExpr_moves hl
    case pos => exact lowerShiftExpr_moves hl
    case neg => exact lowerBinaryExpr_moves hl
  case h_12 => exact readLValueExpr_moves hl
  case h_13 => exact readLValueExpr_moves hl
  case h_14 => exact readLValueExpr_moves hl
  case h_15 => exact lowerCallExpr_moves hl
  case h_16 => exact lowerAssignment_moves hl
  case h_17 => exact lowerCompoundAssignment_moves hl
  case h_18 => exact lowerIncDec_moves hl
  case h_19 => exact lowerIncDec_moves hl
  case h_20 => exact .throw

end Steps

end Lowering

theorem lowering_typing (fuel) : (lowering fuel).toTyping = typing fuel := by
  cases fuel <;> rfl

-- The code of an expression does not depend on the fuel. It depends on the temporaries that have
-- been allocated only up to the names of those that it allocates.
theorem lowering_moves {fuel fuel' : Nat} (h : fuel ≤ fuel') :
    (lowering fuel).AllMove σ (lowering fuel') := by
  induction fuel generalizing fuel'
  case zero =>
    have ht := typing_same (Nat.zero_le fuel')
    exact ⟨lowering_typing fuel' ▸ ht, @fun _ => .outOfFuel, @fun _ => .outOfFuel, @fun _ => .outOfFuel⟩
  case succ hi =>
    obtain ⟨fuel', rfl⟩ := Nat.exists_eq_add_of_le' (Nat.one_le_of_lt h)
    have hl := hi <| Nat.le_of_succ_le_succ h
    exact ⟨typing_same h, @fun _ => Lowering.lowerExprStep_moves hl,
      @fun _ => Lowering.lowerSideEffectStep_moves hl, @fun _ => Lowering.lowerLValueStep_moves hl⟩

end Hcc
