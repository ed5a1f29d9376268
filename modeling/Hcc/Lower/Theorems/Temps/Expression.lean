import Hcc.Lower.Theorems.Temps.Objects

open Stateful

namespace Hcc

variable {ctx : TempContext} {N : Prop} {J : List (List Instr)}

structure Lowering.AllTrack (ctx : TempContext) (l : Lowering) : Prop where
  typing          : l.toTyping.AllRespect ValueState.Quiet
  lowerExpr       : ∀ {N expr}, (N → ¬ctx.Local) → Tracks ctx N [] (l.lowerExpr expr)
  lowerSideEffect : ∀ {N expr}, (N → ¬ctx.Local) → Tracks ctx N [] (l.lowerSideEffect expr)
  lowerLValue     : ∀ {N expr}, (N → ¬ctx.Local) → Tracks ctx N [] (l.lowerLValue expr)

attribute [grind ←] Lowering.AllTrack.lowerExpr Lowering.AllTrack.lowerSideEffect
  Lowering.AllTrack.lowerLValue
attribute [grind →] Lowering.AllTrack.typing

namespace Typing

variable {t : Typing} (ht : t.AllRespect ValueState.Quiet)
variable {base offset lhsOp rhsOp : Operand}

include ht

@[grind ←]
theorem pointerCompoundOffset_tracks (hb : N → base ≠ .temp ctx.temp) (ho : N → offset ≠ .temp ctx.temp) :
    Tracks ctx N [] (t.pointerCompoundOffset op base offset elemTy) := by
  unfold pointerCompoundOffset
  refine .quiet (by grind) fun size => ?_
  split
  case isTrue  => grind
  case isFalse =>
    refine .bind freshTemp_tracks fun scaled h₁ => .bind freshTemp_tracks fun out h₂ => .pure ?_
    simp [settled_iff, Known] at *
    grind

@[grind ←]
theorem compoundIntegerBinOp_tracks (hl : N → lhsOp ≠ .temp ctx.temp) (hr : N → rhsOp ≠ .temp ctx.temp) :
    Tracks ctx N [] (t.compoundIntegerBinOp op targetTy lhsOp rhsExpr rhsOp) := by
  unfold compoundIntegerBinOp
  refine .quiet (by grind) fun leftTy => .quiet (by grind) fun rightTy => ?_
  refine .quiet (by grind) fun commonTy => ?_
  refine .bind (coerceScalar_tracks ht (by grind)) fun left h₁ => ?_
  refine .bind (coerceScalar_tracks ht (by grind)) fun right h₂ => ?_
  refine .quiet (by grind) fun iop => .bind (freshTemp_tracks) fun out h₃ => .pure ?_
  simp [settled_iff, Known] at *
  grind

@[grind ←]
theorem compoundBinOp_tracks (hl : N → lhsOp ≠ .temp ctx.temp) (hr : N → rhsOp ≠ .temp ctx.temp) :
    Tracks ctx N [] (t.compoundBinOp op targetTy lhsOp rhsExpr rhsOp) := by
  unfold compoundBinOp
  grind

end Typing

namespace Lowering

variable {l : Lowering} (hl : l.AllTrack ctx) (hN : N → ¬ctx.Local)

include hl hN

section Assignments

@[grind ←]
theorem lowerAssignment_tracks : Tracks ctx N [] (l.lowerAssignment lhs rhs) := by
  unfold lowerAssignment
  refine .bind (hl.lowerLValue <| by grind) fun lv h₁ => ?_
  refine .bind (hl.lowerExpr <| by grind) fun rhs h₂ => ?_
  refine .bind (Typing.coerceScalar_tracks hl.typing <| by grind) fun coerced h₃ => ?_
  refine .bind (Typing.writeLValue_tracks hl.typing (by grind) (by grind) (by grind)) fun write h₄ => ?_
  refine .pure ?_
  simp [settled_iff, Known] at *
  grind

@[grind ←]
theorem lowerCompoundAssignment_tracks : Tracks ctx N [] (l.lowerCompoundAssignment op lhs rhs) := by
  unfold lowerCompoundAssignment
  refine .bind (hl.lowerLValue <| by grind) fun lv h₁ => ?_
  refine .bind (Typing.readLValue_tracks hl.typing <| by grind) fun current h₂ => ?_
  refine .bind (hl.lowerExpr <| by grind) fun rhs h₃ => ?_
  refine .bind (Typing.compoundBinOp_tracks hl.typing (by grind) (by grind)) fun result h₄ => ?_
  refine .bind (Typing.coerceScalar_tracks hl.typing <| by grind) fun coerced h₅ => ?_
  refine .bind (Typing.writeLValue_tracks hl.typing (by grind) (by grind) (by grind)) fun write h₆ => ?_
  refine .pure ?_
  simp [settled_iff, Known] at *
  grind

@[grind ←]
theorem lowerIncDec_tracks : Tracks ctx N [] (l.lowerIncDec isPrefix op target) := by
  unfold lowerIncDec
  refine .bind (hl.lowerLValue <| by grind) fun lv h₁ => ?_
  refine .bind (Typing.readLValue_tracks hl.typing <| by grind) fun current h₂ => ?_
  refine .bind (freshTemp_tracks) fun out h₃ => .quiet (by grind) fun step => ?_
  split
  case isTrue =>
    refine .bind (Typing.coerceScalar_tracks hl.typing <| by grind) fun coerced h₄ => ?_
    refine .bind (Typing.writeLValue_tracks hl.typing (by grind) (by grind) (by grind)) fun write h₅ => ?_
    refine .pure ?_
    simp [settled_iff, Known] at *
    grind
  case isFalse =>
    refine .bind (freshTemp_tracks) fun old h₄ => ?_
    refine .bind (Typing.writeLValue_tracks hl.typing (by grind) (by grind) (by grind)) fun write h₅ => ?_
    refine .pure ?_
    simp [settled_iff, Known] at *
    grind

end Assignments

section Operators

@[grind ←]
theorem lowerComparisonOperands_tracks : Tracks ctx N [] (l.lowerComparisonOperands a b) := by
  unfold lowerComparisonOperands
  refine .bind (hl.lowerExpr <| by grind) fun left h₁ => ?_
  refine .bind (hl.lowerExpr <| by grind) fun right h₂ => ?_
  refine .quiet (by grind) fun commonTy => ?_
  refine .bind (Typing.coerceScalar_tracks hl.typing <| by grind) fun lc h₃ => ?_
  refine .bind (Typing.coerceScalar_tracks hl.typing <| by grind) fun rc h₄ => .pure ?_
  simp [settled_iff, Known] at *
  grind

@[grind ←]
theorem lowerComparisonExpr_tracks : Tracks ctx N [] (l.lowerComparisonExpr op a b) := by
  unfold lowerComparisonExpr
  refine .bind (lowerComparisonOperands_tracks hl (by grind)) fun ops h₁ => ?_
  refine .bind (freshTemp_tracks) fun out h₂ => .quiet (by grind) fun iop => .pure ?_
  simp [settled_iff, Known] at *
  grind

@[grind ←]
theorem lowerBranchComparison_tracks : Tracks ctx N [] (l.lowerBranchComparison op a b) := by
  unfold lowerBranchComparison
  refine .bind (lowerComparisonOperands_tracks hl (by grind)) fun ops h₁ => ?_
  refine .quiet (by grind) fun iop => .pure ?_
  simp [settled_iff, Known] at *
  grind

@[grind ←]
theorem lowerPlainBin_tracks : Tracks ctx N [] (l.lowerPlainBin op a b) := by
  unfold lowerPlainBin
  refine .bind (hl.lowerExpr <| by grind) fun left h₁ => ?_
  refine .bind (hl.lowerExpr <| by grind) fun right h₂ => ?_
  refine .quiet (by grind) fun commonTy => ?_
  refine .bind (Typing.coerceScalar_tracks hl.typing <| by grind) fun lc h₃ => ?_
  refine .bind (Typing.coerceScalar_tracks hl.typing <| by grind) fun rc h₄ => ?_
  refine .bind (freshTemp_tracks) fun out h₅ => ?_
  refine .bind ?_ fun coerced h₆ => .pure ?_
  · split
    case isTrue  => exact .pure <| by simp [settled_iff]; grind
    case isFalse => exact Typing.coerceScalar_tracks hl.typing <| by grind
  simp [settled_iff, Known] at *
  grind

@[grind ←]
theorem lowerShiftExpr_tracks : Tracks ctx N [] (l.lowerShiftExpr op a b) := by
  unfold lowerShiftExpr
  refine .bind (hl.lowerExpr <| by grind) fun left h₁ => ?_
  refine .bind (hl.lowerExpr <| by grind) fun right h₂ => ?_
  refine .bind (freshTemp_tracks) fun out h₃ => .quiet (by grind) fun iop => ?_
  refine .quiet (by grind) fun resultTy => ?_
  refine .bind (Typing.coerceMaybeScalar_tracks hl.typing <| by grind) fun coerced h₄ => .pure ?_
  simp [settled_iff, Known] at *
  grind

@[grind ←]
theorem lowerPointerDiff_tracks : Tracks ctx N [] (l.lowerPointerDiff a b elemTy) := by
  unfold lowerPointerDiff
  refine .bind (hl.lowerExpr <| by grind) fun left h₁ => ?_
  refine .bind (hl.lowerExpr <| by grind) fun right h₂ => ?_
  refine .bind (freshTemp_tracks) fun diff h₃ => .bind (freshTemp_tracks) fun out h₄ => ?_
  refine .quiet (by grind) fun size => .pure ?_
  simp [settled_iff, Known] at *
  grind

@[grind ←]
theorem lowerPointerOffset_tracks : Tracks ctx N [] (l.lowerPointerOffset op a b elemTy) := by
  unfold lowerPointerOffset
  refine .bind (hl.lowerExpr <| by grind) fun ptr h₁ => ?_
  refine .bind (hl.lowerExpr <| by grind) fun offset h₂ => ?_
  refine .quiet (by grind) fun size => ?_
  refine .bind (scaledOffset_tracks (by grind)) fun scaled h₃ => ?_
  refine .bind (freshTemp_tracks) fun out h₄ => .pure ?_
  simp [settled_iff, Known] at *
  grind

@[grind ←]
theorem lowerAddExpr_tracks : Tracks ctx N [] (l.lowerAddExpr a b) := by
  unfold lowerAddExpr
  grind

@[grind ←]
theorem lowerSubExpr_tracks : Tracks ctx N [] (l.lowerSubExpr a b) := by
  unfold lowerSubExpr
  grind

@[grind ←]
theorem lowerTruthExpr_tracks : Tracks ctx N [] (l.lowerTruthExpr expr) := by
  unfold lowerTruthExpr
  refine .bind (hl.lowerExpr <| by grind) fun value h₁ => ?_
  split_ifs
  case pos => grind
  case neg =>
    refine .bind (freshTemp_tracks) fun out h₂ => .pure ?_
    simp [settled_iff, Known] at *
    grind

@[grind ←]
theorem lowerShortCircuit_tracks : Tracks ctx N [] (l.lowerShortCircuit isAnd left right) := by
  unfold lowerShortCircuit
  refine .bind (hl.lowerExpr <| by grind) fun left h₁ => ?_
  refine .bind (lowerTruthExpr_tracks hl (by grind)) fun right h₂ => ?_
  refine .bind (freshTemp_tracks) fun out h₃ => .pure ?_
  cases isAnd <;> simp [settled_iff, Known] at * <;> grind

@[grind ←]
theorem lowerDivision_tracks : Tracks ctx N [] (l.lowerDivision op a b) := by
  unfold lowerDivision
  grind

@[grind ←]
theorem lowerBinaryExpr_tracks : Tracks ctx N [] (l.lowerBinaryExpr op a b) := by
  unfold lowerBinaryExpr
  grind

@[grind ←]
theorem lowerConditional_tracks {cond : Expr} : Tracks ctx N [] (l.lowerConditional cond yes no) := by
  unfold lowerConditional
  refine .bind (hl.lowerExpr <| by grind) fun cond h₁ => ?_
  refine .bind (hl.lowerExpr <| by grind) fun yes h₂ => ?_
  refine .bind (hl.lowerExpr <| by grind) fun no h₃ => ?_
  refine .quiet (by grind) fun resultTy => ?_
  refine .bind (Typing.coerceMaybeScalar_tracks hl.typing <| by grind) fun yc h₄ => ?_
  refine .bind (Typing.coerceMaybeScalar_tracks hl.typing <| by grind) fun nc h₅ => ?_
  refine .bind (freshTemp_tracks) fun out h₆ => .pure ?_
  simp [settled_iff, Known] at *
  grind

end Operators

section Variables

omit hl in
-- The temporary of a variable.
theorem lookupVarMaybe_tracks {α : Type} [Emission α] {f : Option Temp → ValueM α}
    (hf : ∀ var, (∀ temp ∈ var, N → temp ≠ ctx.temp) → Tracks ctx N J (f var)) :
    Tracks ctx N J (lookupVarMaybe name >>= f) := by
  intro st a st' hr hs
  obtain ⟨var, _, hl, hr⟩ := run_value_bind_iff.mp hr
  obtain ⟨rfl, rfl⟩ := run_lookupVarMaybe_iff.mp hl
  refine hf _ (fun temp ht h he => hN h ?_) hr hs
  have ⟨v, hv, ht⟩ := Option.map_eq_some_iff.mp ht
  exact ⟨name, v.2, hv.trans <| congrArg some <| Prod.ext (ht.trans he) rfl⟩

omit hN in
@[grind ←]
theorem lowerTypedGlobalVarExpr_tracks : Tracks ctx N [] (l.lowerTypedGlobalVarExpr name ty) := by
  unfold lowerTypedGlobalVarExpr
  split
  case h_1 => exact .pure <| by simp [settled_iff]
  case h_2 =>
    refine .quiet (by grind) fun aggregate => ?_
    split
    case isTrue  => exact .pure <| by simp [settled_iff]
    case isFalse =>
      refine .bind freshTemp_tracks fun out ho => ?_
      refine Typing.loadInstr_tracks hl.typing fun load h₁ h₂ h₃ h₄ => .pure ?_
      simp [settled_iff, h₁, h₂, h₃, h₄]
      grind

omit hN in
@[grind ←]
theorem lowerGlobalVarExpr_tracks : Tracks ctx N [] (l.lowerGlobalVarExpr name) := by
  unfold lowerGlobalVarExpr
  grind

omit hN in
@[grind ←]
theorem lowerNonLocalVarExpr_tracks : Tracks ctx N [] (l.lowerNonLocalVarExpr name) := by
  unfold lowerNonLocalVarExpr
  grind

@[grind ←]
theorem lowerNonConstantVarExpr_tracks : Tracks ctx N [] (l.lowerNonConstantVarExpr name) := by
  unfold lowerNonConstantVarExpr
  refine lookupVarMaybe_tracks hN fun var hv => ?_
  split
  case h_1 temp =>
    refine .quiet (by grind) fun _ => .quiet (by grind) fun ty => ?_
    exact Typing.coerceScalar_tracks hl.typing fun h => by simpa using hv temp rfl h
  case h_2 => grind

@[grind ←]
theorem lowerNonBuiltinVarExpr_tracks : Tracks ctx N [] (l.lowerNonBuiltinVarExpr name) := by
  unfold lowerNonBuiltinVarExpr
  grind

@[grind ←]
theorem lowerFunctionNameMacro_tracks : Tracks ctx N [] l.lowerFunctionNameMacro := by
  unfold lowerFunctionNameMacro
  grind

@[grind ←]
theorem lowerVarExpr_tracks : Tracks ctx N [] (l.lowerVarExpr name) := by
  unfold lowerVarExpr
  grind

end Variables

section Addresses

@[grind ←]
theorem lowerNonFunctionAddress_tracks : Tracks ctx N [] (l.lowerNonFunctionAddress target) := by
  unfold lowerNonFunctionAddress
  refine .bind (hl.lowerLValue <| by grind) fun (instrs, lvalue) h₁ => ?_
  cases lvalue
  case lAddress addr ty => exact .pure <| by simp [settled_iff, Known, LValue.operands] at *; grind
  case lLocal temp ty =>
    refine .quiet (by grind) fun aggregate => ?_
    split
    case isTrue  => exact .pure <| by simp [settled_iff, Known, LValue.operands] at *; grind
    case isFalse =>
      refine .bind freshTemp_tracks fun out h₂ => .pure ?_
      simp [settled_iff, Known, LValue.operands] at *
      grind

@[grind ←]
theorem lowerVarAddress_tracks : Tracks ctx N [] (l.lowerVarAddress name) := by
  unfold lowerVarAddress
  grind

@[grind ←]
theorem lowerLValueAddress_tracks : Tracks ctx N [] (l.lowerLValueAddress target) := by
  unfold lowerLValueAddress
  grind

omit hl in
-- A variable that is not an aggregate is known to be a scalar.
theorem lowerVarLValue_tracks : Tracks ctx N [] (lowerVarLValue name) := by
  intro st lv st' hr hs
  unfold lowerVarLValue at hr
  obtain ⟨var, _, hv, hr⟩ := run_value_bind_iff.mp hr
  obtain ⟨rfl, rfl⟩ := run_lookupVarMaybe_iff.mp hv
  rcases hl : scopeMapLookup name ctx.scope with _ | ⟨temp, ty⟩ <;> rw [hl] at hr
  case none =>
    obtain ⟨mty, _, ht, hr⟩ := run_value_bind_iff.mp hr
    obtain ⟨rfl, rfl⟩ := run_lookupGlobalType_iff.mp ht
    obtain ⟨ty, _, ht, hr⟩ := run_value_bind_iff.mp hr
    have hq : st.Quiet _ := requireMaybeType_respects _ _ ht
    obtain ⟨rfl, rfl⟩ := run_value_pure_iff.mp hr
    refine ⟨hq.nextTemp.ge, hs.quiet hq, ?_, by simp [hq.nextTemp]⟩
    simp [Known, LValue.operands, LValue.locals]
  case some =>
    obtain ⟨mty, _, ht, hr⟩ := run_value_bind_iff.mp hr
    obtain ⟨rfl, rfl⟩ := run_lookupVarType_iff.mp ht
    simp only [hl, Option.map_some, requireMaybeType, pure_bind] at hr
    obtain ⟨rfl, rfl⟩ := run_value_pure_iff.mp hr
    refine ⟨le_rfl, hs, ⟨fun h _ => ⟨unused_nil, ?_⟩, fun h => ⟨unassigned_nil, ?_⟩⟩, by simp⟩
    · have ht : temp ≠ ctx.temp := fun he => hN h ⟨name, ty, he ▸ hl⟩
      simpa [LValue.operands] using ht
    · intro ty' hm
      obtain ⟨he, rfl⟩ : ctx.temp = temp ∧ ty' = ty := by simpa [LValue.locals] using hm
      by_contra ha
      exact h ⟨name, ty', he ▸ hl, ha⟩

theorem readLValueExpr_tracks : Tracks ctx N [] (l.readLValueExpr target) := by
  unfold readLValueExpr
  refine .bind (hl.lowerLValue <| by grind) fun lv h₁ => ?_
  refine .bind (Typing.readLValue_tracks hl.typing <| by grind) fun value h₂ => .pure ?_
  simp [settled_iff, Known] at *
  grind

end Addresses

section Calls

@[grind ←]
theorem lowerCallArg_tracks : Tracks ctx N [] (l.lowerCallArg expr) := by
  unfold lowerCallArg
  refine .bind (hl.lowerExpr <| by grind) fun value h₁ => .quiet (by grind) fun ty => ?_
  split
  case h_1 => grind
  case h_2 =>
    refine .quiet (by grind) fun fields => ?_
    split
    case h_1 => grind
    case h_2 =>
      refine .quiet (by grind) fun size => .bind freshTemp_tracks fun temp h₂ => ?_
      refine .bind (Typing.copyObject_tracks hl.typing (by grind) (by grind)) fun copies h₃ => .pure ?_
      simp [settled_iff, Known] at *
      grind

@[grind ←]
theorem lowerCallArgs_tracks : Tracks ctx N [] (l.lowerCallArgs args) := by
  unfold lowerCallArgs
  refine .bind (.mapM fun arg h => lowerCallArg_tracks hl fun h' => hN (h h').left) fun lowered h₁ => .pure ?_
  simp [settled_iff, Known] at *
  grind

@[grind ←]
theorem lowerDirectCallExpr_tracks : Tracks ctx N [] (l.lowerDirectCallExpr name args) := by
  unfold lowerDirectCallExpr
  refine .bind (lowerCallArgs_tracks hl <| by grind) fun args h₁ => .bind freshTemp_tracks fun out h₂ => .pure ?_
  simp [settled_iff, Known] at *
  grind

@[grind ←]
theorem lowerDirectSideEffect_tracks : Tracks ctx N [] (l.lowerDirectSideEffect name args) := by
  unfold lowerDirectSideEffect
  grind

@[grind ←]
theorem lowerIndirectCallInstrs_tracks :
    Tracks ctx N [] (l.lowerIndirectCallInstrs none callee args) := by
  unfold lowerIndirectCallInstrs
  refine .bind (hl.lowerExpr <| by grind) fun callee h₁ => ?_
  refine .bind (lowerCallArgs_tracks hl <| by grind) fun args h₂ => .pure ?_
  simp [settled_iff, Known, Instr.operands, Instr.nested, Instr.created, Instr.assigned] at *
  grind

@[grind ←]
theorem lowerCallSideEffect_tracks : Tracks ctx N [] (l.lowerCallSideEffect callee args) := by
  unfold lowerCallSideEffect
  grind

@[grind ←]
theorem lowerIndirectCall_tracks : Tracks ctx N [] (l.lowerIndirectCall callee args) := by
  simp only [lowerIndirectCall, lowerIndirectCallInstrs, bind_assoc, pure_bind]
  refine .bind freshTemp_tracks fun out h₁ => .bind (hl.lowerExpr <| by grind) fun callee h₂ => ?_
  refine .bind (lowerCallArgs_tracks hl <| by grind) fun args h₃ => .pure ?_
  simp [settled_iff, Known, Instr.operands, Instr.nested, Instr.created, Instr.assigned] at *
  grind

@[grind ←]
theorem lowerCallExpr_tracks : Tracks ctx N [] (l.lowerCallExpr callee args) := by
  unfold lowerCallExpr
  grind

end Calls

section Steps

@[grind ←]
theorem lowerUnaryExpr_tracks : Tracks ctx N [] (l.lowerUnaryExpr op x) := by
  unfold lowerUnaryExpr
  split
  case h_1 =>
    refine .bind (hl.lowerExpr <| by grind) fun value h₁ => .quiet (by grind) fun ty => ?_
    refine .bind (Typing.coerceScalar_tracks hl.typing <| by grind) fun coerced h₂ => .pure ?_
    simp [settled_iff, Known] at *
    grind
  case h_2 =>
    refine .bind (hl.lowerExpr <| by grind) fun value h₁ => .bind freshTemp_tracks fun zero h₂ => ?_
    refine .bind freshTemp_tracks fun out h₃ => .quiet (by grind) fun ty => ?_
    refine .bind (Typing.coerceScalar_tracks hl.typing <| by grind) fun coerced h₄ => .pure ?_
    simp [settled_iff, Known] at *
    grind
  case h_3 =>
    refine .bind (hl.lowerExpr <| by grind) fun value h₁ => .bind freshTemp_tracks fun zero h₂ => ?_
    refine .bind freshTemp_tracks fun out h₃ => .pure ?_
    simp [settled_iff, Known] at *
    grind
  case h_4 =>
    refine .bind (hl.lowerExpr <| by grind) fun value h₁ => .bind freshTemp_tracks fun zero h₂ => ?_
    refine .bind freshTemp_tracks fun neg h₃ => .bind freshTemp_tracks fun out h₄ => ?_
    refine .quiet (by grind) fun ty => ?_
    refine .bind (Typing.coerceScalar_tracks hl.typing <| by grind) fun coerced h₅ => .pure ?_
    simp [settled_iff, Known] at *
    grind
  case h_5 => grind
  case h_6 => grind
  case h_7 => exact readLValueExpr_tracks hl hN
  case h_8 => grind
  case h_9 => grind
  case h_10 => exact .throw

omit hN in
@[grind ←]
theorem lowerSize_tracks : Tracks ctx N [] (l.lowerSize ty) := by
  unfold lowerSize
  grind

omit hl hN in
theorem dataItem_tracks {values : List DataValue} : Tracks ctx N [] (do
    let dataLabel ← freshDataLabel
    addDataItem ⟨dataLabel, values⟩
    return (([], .global dataLabel) : List Instr × Operand)) := by
  intro st a st' hr hs
  have h : st.Quiet st' := Respects.withItem (fun _ => .pure) hr
  obtain ⟨_, _, _, hr⟩ := run_value_bind_iff.mp hr
  obtain ⟨_, _, _, hr⟩ := run_value_bind_iff.mp hr
  obtain ⟨rfl, rfl⟩ := run_value_pure_iff.mp hr
  refine ⟨h.nextTemp.ge, hs.quiet h, by simp [Known], by simp [h.nextTemp]⟩

theorem lowerExprStep_tracks : Tracks ctx N [] (l.lowerExprStep expr) := by
  unfold lowerExprStep
  split
  case h_1 => exact .pure <| by simp [settled_iff, intConstOperand]; split <;> simp
  case h_2 => exact .pure <| by simp [settled_iff]
  case h_3 => exact .pure <| by simp [settled_iff]
  case h_4 => exact dataItem_tracks
  case h_7 =>
    refine .bind (hl.lowerExpr <| by grind) fun value h₁ => ?_
    refine .bind (Typing.coerceScalar_tracks hl.typing <| by grind) fun coerced h₂ => .pure ?_
    simp [settled_iff, Known] at *
    grind
  case h_11 op a b =>
    split_ifs
    case pos =>
      refine .bind (hl.lowerSideEffect <| by grind) fun ai h₁ => .bind (hl.lowerExpr <| by grind) fun b h₂ => ?_
      refine .pure ?_
      simp [settled_iff, Known] at *
      grind
    all_goals grind
  case h_12 => exact readLValueExpr_tracks hl hN
  case h_13 => exact readLValueExpr_tracks hl hN
  case h_14 => exact readLValueExpr_tracks hl hN
  case h_20 => exact .throw
  all_goals grind

theorem lowerSideEffectStep_tracks : Tracks ctx N [] (l.lowerSideEffectStep expr) := by
  unfold lowerSideEffectStep
  split <;> grind

theorem lowerLValueStep_tracks : Tracks ctx N [] (l.lowerLValueStep target) := by
  unfold lowerLValueStep
  split
  case h_1 => exact lowerVarLValue_tracks hN
  case h_2 =>
    refine .bind (hl.lowerExpr <| by grind) fun value h₁ => ?_
    refine .quiet (by grind) fun ty => .quiet (by grind) fun knownTy => .pure ?_
    simp [settled_iff, Known, LValue.operands, LValue.locals] at *
    grind
  case h_3 =>
    refine .bind (hl.lowerExpr <| by grind) fun base h₁ => ?_
    refine .bind (hl.lowerExpr <| by grind) fun ix h₂ => ?_
    refine .quiet (by grind) fun elemTy => .quiet (by grind) fun elemSize => ?_
    refine .bind (scaledIndex_tracks <| by grind) fun scaled h₃ => .bind freshTemp_tracks fun addr h₄ => .pure ?_
    simp [settled_iff, Known, LValue.operands, LValue.locals] at *
    grind
  case h_4 =>
    refine .bind (hl.lowerExpr <| by grind) fun base h₁ => ?_
    refine .quiet (by grind) fun baseTy => .quiet (by grind) fun info => ?_
    refine .bind (offsetAddress_tracks <| by grind) fun addr h₂ => .pure ?_
    simp [settled_iff, Known, LValue.operands, LValue.locals] at *
    grind
  case h_5 =>
    refine .bind (lowerLValueAddress_tracks hl <| by grind) fun base h₁ => ?_
    refine .quiet (by grind) fun baseTy => .quiet (by grind) fun knownTy => .quiet (by grind) fun info => ?_
    refine .bind (offsetAddress_tracks <| by grind) fun addr h₂ => .pure ?_
    simp [settled_iff, Known, LValue.operands, LValue.locals] at *
    grind
  case h_6 => exact .throw

end Steps

end Lowering

theorem lowering_tracks (fuel) : (lowering fuel).AllTrack ctx := by
  induction fuel
  case zero      => exact ⟨typing_respects 0, fun _ => .outOfFuel, fun _ => .outOfFuel, fun _ => .outOfFuel⟩
  case succ _ hi =>
    exact ⟨typing_respects _, fun hN => Lowering.lowerExprStep_tracks hi hN,
      fun hN => Lowering.lowerSideEffectStep_tracks hi hN, fun hN => Lowering.lowerLValueStep_tracks hi hN⟩

end Hcc
