import Hcc.Lower.Program
import Hcc.Lower.Theorems.Closure
import Hcc.Lower.Theorems.Steady.Expression

open Stateful

namespace Hcc

-- The values in the state of a computation.
class HasValues (σ : Type) where
  values : σ → ValueState

instance : HasValues ExprState where
  values := ExprState.toValueState

instance : HasValues CompileState where
  values st := st.toValueState

-- The function that is lowered can be changed temporarily.
class StableFunction (R : ValueState → ValueState → Prop) : Prop extends Stable R where
  currentFunction : ∀ {st st'} name, R { st with currentFunction := name } st' →
                    R st { st' with currentFunction := st.currentFunction }

instance : StableFunction ValueState.Extends where
  currentFunction _ h := ⟨h.nextTemp, h.nextLabel, h.globals, h.constants, h.functions, h.functionTypes,
    h.targetBits, rfl⟩

-- Names can be declared.
class TameSymbols (R : ValueState → ValueState → Prop) : Prop extends Tame R where
  symbols : ∀ st globals constants functions functionTypes,
            R st { st with globals, constants, functions, functionTypes }

variable {σ : Type} [HasValues σ] {α β : Type} {R : ValueState → ValueState → Prop}

def Conforms (R : ValueState → ValueState → Prop) (m : Stateful σ String α) : Prop :=
  ∀ ⦃st a st'⦄, Run m st a st' → R (HasValues.values st) (HasValues.values st')

namespace Conforms

variable {m : Stateful σ String α} {f : α → Stateful σ String β}

@[grind ←]
theorem throw {msg : String} : Conforms R (throw msg : Stateful σ String α) :=
  fun _ _ _ hr => absurd hr not_run_throw

theorem outOfFuel : Conforms R (Stateful.outOfFuel : Stateful σ String α) :=
  fun _ _ _ hr => absurd hr not_run_outOfFuel

variable [Stable R]

@[grind ←]
theorem pure {a : α} : Conforms R (pure a : Stateful σ String α) := by
  intro st _ _ hr
  exact (run_pure_iff.mp hr).right ▸ Tame.refl _

@[grind ←]
theorem bind (hm : Conforms R m) (hf : ∀ a, Conforms R (f a)) : Conforms R (m >>= f) := by
  intro _ _ _ hr
  have ⟨_, _, hr, hr'⟩ := run_bind_iff.mp hr
  exact Tame.trans (hm hr) <| hf _ hr'

@[grind ←]
theorem get : Conforms R (get : Stateful σ String σ) := by
  intro st _ _ hr
  exact (run_get_iff.mp hr).right ▸ Tame.refl _

theorem modify {g : σ → σ} (hg : ∀ st, HasValues.values (g st) = HasValues.values st) :
    Conforms R (modify g : Stateful σ String Unit) := by
  intro st _ _ hr
  rw [←run_modify_iff.mp hr, hg]
  exact Tame.refl _

@[grind ←]
theorem mapM {g : α → Stateful σ String β} (hg : ∀ a, Conforms R (g a)) (as : List α) :
    Conforms R (as.mapM g) := by
  induction as
  case nil          => exact .pure
  case cons a _ hi  =>
    rw [List.mapM_cons]
    exact (hg a).bind fun _ => hi.bind fun _ => .pure

omit [Stable R] in
@[grind ←]
theorem onValues {m : ValueM α} (hm : Respects R m) : Conforms R (onValues m) := by
  intro _ _ _ hr
  obtain ⟨_, hv, rfl⟩ := run_onValues_iff.mp hr
  exact hm hv

omit [Stable R] in
@[grind ←]
theorem onExprs {m : ExprM α} (hm : Conforms R m) : Conforms R (onExprs m) := by
  intro _ _ _ hr
  obtain ⟨_, he, rfl⟩ := run_within_iff.mp hr
  exact hm he

omit [Stable R] in
@[grind ←]
theorem onState {m : ValueM α} (hm : Respects R m) : Conforms R (onState m) :=
  onExprs <| onValues hm

end Conforms

section Emission

variable [Stable R]

@[grind ←]
theorem bindVar_conforms (name temp ty) : Conforms R (bindVar name temp ty) :=
  .modify fun _ => rfl

@[grind ←]
theorem currentReturnType_conforms : Conforms R currentReturnType := by
  unfold currentReturnType
  grind

@[grind ←]
theorem freshBlock_conforms : Conforms R freshBlock := by
  intro st _ _ hr
  simp only [freshBlock, run_bind_iff, run_get_iff, run_pure_iff, run_set_iff] at hr
  obtain ⟨_, _, ⟨rfl, rfl⟩, _, _, rfl, rfl, rfl⟩ := hr
  exact Tame.refl st.toValueState

@[grind ←]
theorem labelBlock_conforms (name) : Conforms R (labelBlock name) := by
  intro st _ _ hr
  simp only [labelBlock, run_bind_iff, run_get_iff] at hr
  obtain ⟨_, _, ⟨rfl, rfl⟩, hr⟩ := hr
  split at hr
  case h_1 => exact (run_pure_iff.mp hr).right ▸ Tame.refl _
  case h_2 =>
    simp only [run_bind_iff, run_set_iff, run_pure_iff] at hr
    obtain ⟨_, _, rfl, rfl, rfl⟩ := hr
    exact Tame.refl st.toValueState

@[grind ←]
theorem currentBreakTarget_conforms : Conforms R currentBreakTarget := by
  unfold currentBreakTarget
  grind

@[grind ←]
theorem currentContinueTarget_conforms : Conforms R currentContinueTarget := by
  unfold currentContinueTarget
  grind

end Emission

section Scopes

variable {m : CompileM α}

-- The fields that are changed within a scope do not belong to the values.
theorem within_conforms {enter : CompileState → CompileState} {leave : CompileState → CompileState → CompileState}
    (he : ∀ st, (enter st).toValueState = st.toValueState)
    (hl : ∀ st st', (leave st st').toValueState = st'.toValueState) (hm : Conforms R m) :
    Conforms R (within enter leave m) := by
  intro st _ _ hr
  obtain ⟨t, ht, rfl⟩ := run_within_iff.mp hr
  have h : R (enter st).toValueState t.toValueState := hm ht
  rw [he, ←hl st t] at h
  exact h

@[grind ←]
theorem withVarScope_conforms (hm : Conforms R m) : Conforms R (withVarScope m) :=
  within_conforms (fun _ => rfl) (fun _ _ => rfl) hm

@[grind ←]
theorem withLoopTargets_conforms (hm : Conforms R m) (breakTarget continueTarget) :
    Conforms R (withLoopTargets breakTarget continueTarget m) :=
  within_conforms (fun _ => rfl) (fun _ _ => rfl) hm

@[grind ←]
theorem withBreakTarget_conforms (hm : Conforms R m) (breakTarget) :
    Conforms R (withBreakTarget breakTarget m) :=
  within_conforms (fun _ => rfl) (fun _ _ => rfl) hm

@[grind ←]
theorem withFunctionScope_conforms (hm : Conforms R m) : Conforms R (withFunctionScope m) :=
  within_conforms (fun _ => rfl) (fun _ _ => rfl) hm

end Scopes

@[grind ←]
theorem withCurrentFunction_conforms [StableFunction R] {m : CompileM α} (hm : Conforms R m) (name) :
    Conforms R (withCurrentFunction name m) := by
  intro st _ _ hr
  obtain ⟨t, ht, rfl⟩ := run_within_iff.mp hr
  exact StableFunction.currentFunction (some name) <| hm ht

@[grind ←]
theorem withErrorContext_conforms {m : CompileM α} (hm : Conforms R m) (context) :
    Conforms R (withErrorContext context m) :=
  fun _ _ _ hr => hm <| run_withErrorContext_iff.mp hr

structure ExprLowering.AllConform (R : ValueState → ValueState → Prop) (ex : ExprLowering) : Prop where
  lowerExpr             : ∀ expr, Conforms R (ex.lowerExpr expr)
  lowerSideEffect       : ∀ expr, Conforms R (ex.lowerSideEffect expr)
  lowerDecl             : ∀ ty name init, Conforms R (ex.lowerDecl ty name init)
  lowerBranchComparison : ∀ op a b, Conforms R (ex.lowerBranchComparison op a b)
  coerceScalar          : ∀ ty op, Conforms R (ex.coerceScalar ty op)

attribute [grind ←] ExprLowering.AllConform.lowerExpr ExprLowering.AllConform.lowerSideEffect
  ExprLowering.AllConform.lowerDecl ExprLowering.AllConform.lowerBranchComparison
  ExprLowering.AllConform.coerceScalar

theorem exprLowering_conforms [Stable R] (fuel) : (exprLowering fuel).AllConform R where
  lowerExpr expr               := .onValues <| (lowering_respects fuel).lowerExpr expr
  lowerSideEffect expr         := .onValues <| (lowering_respects fuel).lowerSideEffect expr
  lowerDecl ty name init       :=
    .bind (.onValues <| isAggregateTypeM_respects ty) fun _ => .bind (.onValues freshTemp_respects) fun _ =>
      .bind (bindVar_conforms ..) fun _ => .onValues <| by
        have hl : (lowering fuel).AllRespect R := lowering_respects fuel
        split
        case isTrue  => exact Lowering.lowerAggregateDecl_respects hl ty _ init
        case isFalse => exact Lowering.lowerScalarDecl_respects hl ty _ init
  lowerBranchComparison op a b :=
    .onValues <| Lowering.lowerBranchComparison_respects (lowering_respects fuel) op a b
  coerceScalar ty op           := .onValues <| Typing.coerceScalar_respects (lowering_respects fuel).typing ty op

section Statements

variable [Stable R] {ex : ExprLowering} (hx : ex.AllConform R)

@[grind ←]
theorem freshBlocks_conforms (count) : Conforms R (freshBlocks count) := by
  induction count <;> unfold freshBlocks <;> grind

@[grind ←]
theorem requireBreakTarget_conforms : Conforms R requireBreakTarget := by
  unfold requireBreakTarget
  grind

@[grind ←]
theorem requireContinueTarget_conforms : Conforms R requireContinueTarget := by
  unfold requireContinueTarget
  grind

@[grind ←]
theorem defaultReturnTerm_conforms : Conforms R defaultReturnTerm := by
  unfold defaultReturnTerm
  grind

@[grind ←]
theorem lowerParams_conforms (index params) : Conforms R (lowerParams index params) := by
  induction params generalizing index <;> unfold lowerParams <;> grind

include hx

@[grind ←]
theorem coerceReturnOperand_conforms (op) : Conforms R (coerceReturnOperand ex op) := by
  unfold coerceReturnOperand
  grind

@[grind ←]
theorem lowerDecls_conforms (decls) : Conforms R (lowerDecls ex decls) := by
  unfold lowerDecls
  grind

@[grind ←]
theorem lowerForInit_conforms (init) : Conforms R (lowerForInit ex init) := by
  unfold lowerForInit
  grind

@[grind ←]
theorem lowerValueConditionBlock_conforms (bid instrs cond trueId falseId) :
    Conforms R (lowerValueConditionBlock ex bid instrs cond trueId falseId) := by
  unfold lowerValueConditionBlock
  grind

@[grind ←]
theorem lowerConditionBlock_conforms (bid instrs cond trueId falseId) :
    Conforms R (lowerConditionBlock ex bid instrs cond trueId falseId) := by
  fun_induction lowerConditionBlock ex bid instrs cond trueId falseId <;> grind

@[grind ←]
theorem lowerLoopConditionBlocks_conforms (condExpr condId bodyId restId) :
    Conforms R (lowerLoopConditionBlocks ex condExpr condId bodyId restId) := by
  unfold lowerLoopConditionBlocks
  grind

@[grind ←]
theorem lowerSwitchDispatch_conforms (bid valueOp defaultTarget cases) :
    Conforms R (lowerSwitchDispatch ex bid valueOp defaultTarget cases) := by
  fun_induction lowerSwitchDispatch ex bid valueOp defaultTarget cases <;> grind

section

variable {lower : BlockId → List Instr → List Stmt → Terminator → CompileM (List BasicBlock)}
variable (hl : ∀ bid instrs stmts term, Conforms R (lower bid instrs stmts term))

include hl

omit hx in
@[grind ←]
theorem lowerIfRestTarget_conforms (rest defaultTerm) :
    Conforms R (lowerIfRestTarget lower rest defaultTerm) := by
  unfold lowerIfRestTarget lowerIfJoinTarget
  grind

omit hx in
@[grind ←]
theorem lowerIfNoBlocks_conforms (no noId restId) : Conforms R (lowerIfNoBlocks lower no noId restId) := by
  unfold lowerIfNoBlocks
  grind

omit hx in
@[grind ←]
theorem lowerUnreachableLabels_conforms (stmts defaultTerm) :
    Conforms R (lowerUnreachableLabels lower stmts defaultTerm) := by
  fun_induction lowerUnreachableLabels lower stmts defaultTerm <;> grind

@[grind ←]
theorem lowerForLoop_conforms (bid instrs init condExpr stepExpr body restId) :
    Conforms R (lowerForLoop ex lower bid instrs init condExpr stepExpr body restId) := by
  unfold lowerForLoop
  cases stepExpr <;> grind

omit hx in
@[grind ←]
theorem lowerSwitchClauses_conforms (restId clauses) : Conforms R (lowerSwitchClauses lower restId clauses) := by
  induction clauses <;> unfold lowerSwitchClauses <;> grind

@[grind ←]
theorem lowerSwitch_conforms (dispatchId restId valueOp body) :
    Conforms R (lowerSwitch ex lower dispatchId restId valueOp body) := by
  unfold lowerSwitch
  grind

@[grind ←]
theorem lowerStatementsFrom_step_conforms (bid instrs stmts defaultTerm) :
    Conforms R (lowerStatementsFrom.step ex lower bid instrs stmts defaultTerm) := by
  unfold lowerStatementsFrom.step
  split
  case h_12 init condExpr stepExpr body rest => cases init <;> grind
  all_goals grind

end

@[grind ←]
theorem lowerStatementsFrom_conforms (fuel bid instrs stmts defaultTerm) :
    Conforms R (lowerStatementsFrom ex fuel bid instrs stmts defaultTerm) := by
  induction fuel generalizing bid instrs stmts defaultTerm
  case zero      => exact .outOfFuel
  case succ _ hi => exact lowerStatementsFrom_step_conforms hx hi bid instrs stmts defaultTerm

end Statements

theorem lowerFunction_conforms [StableFunction R] {ex : ExprLowering} (hx : ex.AllConform R)
    (fuel name params body) : Conforms R (lowerFunction ex fuel name params body) := by
  unfold lowerFunction lowerFunctionBody
  grind

section Registers

variable [Tame R]

mutual

theorem registerTypeAggregates_respects : (ty : CType) → Respects R (registerTypeAggregates ty)
  | .ptr inner             => registerTypeAggregates_respects inner
  | .array inner _         => registerTypeAggregates_respects inner
  | .func ret params       =>
    .bind (registerTypeAggregates_respects ret) fun _ => registerTypesAggregates_respects params
  | .structNamed _ fields  => .bind (registerFieldAggregates_respects fields) fun _ => bindStruct_respects ..
  | .unionNamed _ fields   => .bind (registerFieldAggregates_respects fields) fun _ => bindStruct_respects ..
  | .structDef fields      => registerFieldAggregates_respects fields
  | .unionDef fields       => registerFieldAggregates_respects fields
  | .void | .int | .short | .char | .unsigned | .unsignedShort | .unsignedChar | .long | .unsignedLong
  | .longLong | .unsignedLongLong | .bool | .float | .double | .longDouble | .struct _ | .union _
  | .enum _ | .named _     => .pure

theorem registerTypesAggregates_respects : (types : List CType) → Respects R (registerTypesAggregates types)
  | []         => .pure
  | ty :: rest => .bind (registerTypeAggregates_respects ty) fun _ => registerTypesAggregates_respects rest

theorem registerFieldAggregates_respects : (fields : List Field) → Respects R (registerFieldAggregates fields)
  | []               => .pure
  | .mk ty _ :: rest => .bind (registerTypeAggregates_respects ty) fun _ => registerFieldAggregates_respects rest

end

attribute [grind ←] registerTypeAggregates_respects registerTypesAggregates_respects
  registerFieldAggregates_respects

@[grind ←]
theorem rejectReservedSymbol_respects (kind name) : Respects R (rejectReservedSymbol kind name) := by
  unfold rejectReservedSymbol
  grind

@[grind ←]
theorem registerBuiltinStructs_respects : Respects R registerBuiltinStructs := by
  unfold registerBuiltinStructs
  grind

end Registers

section Symbols

variable [TameSymbols R]

@[grind ←]
theorem bindGlobal_respects (name ty) : Respects R (bindGlobal name ty) :=
  .bind (rejectReservedSymbol_respects _ _) fun _ => .modify fun st => TameSymbols.symbols st ..

@[grind ←]
theorem bindConstant_respects (name value) : Respects R (bindConstant name value) :=
  .modify fun st => TameSymbols.symbols st ..

@[grind ←]
theorem bindFunction_respects (name) : Respects R (bindFunction name) :=
  .bind (rejectReservedSymbol_respects _ _) fun _ => .modify fun st => TameSymbols.symbols st ..

@[grind ←]
theorem bindFunctionType_respects (name retTy params) : Respects R (bindFunctionType name retTy params) :=
  .bind (rejectReservedSymbol_respects _ _) fun _ => .modify fun st => TameSymbols.symbols st ..

@[grind ←]
theorem registerExternGlobals_respects (decls) : Respects R (registerExternGlobals decls) := by
  induction decls <;> unfold registerExternGlobals <;> grind

@[grind ←]
theorem registerConstants_respects (constants) : Respects R (registerConstants constants) := by
  induction constants <;> unfold registerConstants <;> grind

@[grind ←]
theorem registerFunctionDecl_respects (ty name params) : Respects R (registerFunctionDecl ty name params) := by
  unfold registerFunctionDecl
  grind

@[grind ←]
theorem registerTopDeclShallowState_respects (decl) : Respects R (registerTopDeclShallowState decl) := by
  unfold registerTopDeclShallowState
  grind

@[grind ←]
theorem registerImplicitCallName_respects (names name) :
    Respects R (registerImplicitCallName names name) := by
  unfold registerImplicitCallName
  grind

mutual

theorem registerImplicitCallsExpr_respects (names : List String) :
    (expr : Expr) → Respects R (registerImplicitCallsExpr names expr)
  | .call callee args         => by
    have hc := registerImplicitCallsExpr_respects names callee
    have ha := registerImplicitCallsExprs_respects names args
    cases callee
    case var => unfold registerImplicitCallsExpr; grind
    all_goals exact .bind hc fun _ => ha
  | .index base ix            =>
    .bind (registerImplicitCallsExpr_respects names base) fun _ => registerImplicitCallsExpr_respects names ix
  | .member base _            => registerImplicitCallsExpr_respects names base
  | .ptrMember base _         => registerImplicitCallsExpr_respects names base
  | .unary _ value            => registerImplicitCallsExpr_respects names value
  | .sizeofExpr value         => registerImplicitCallsExpr_respects names value
  | .cast _ value             => registerImplicitCallsExpr_respects names value
  | .postIncDec _ value       => registerImplicitCallsExpr_respects names value
  | .binary _ left right      =>
    .bind (registerImplicitCallsExpr_respects names left) fun _ => registerImplicitCallsExpr_respects names right
  | .cond cond yes no         =>
    .bind (registerImplicitCallsExpr_respects names cond) fun _ =>
      .bind (registerImplicitCallsExpr_respects names yes) fun _ => registerImplicitCallsExpr_respects names no
  | .assign lhs rhs           =>
    .bind (registerImplicitCallsExpr_respects names lhs) fun _ => registerImplicitCallsExpr_respects names rhs
  | .compoundAssign _ lhs rhs =>
    .bind (registerImplicitCallsExpr_respects names lhs) fun _ => registerImplicitCallsExpr_respects names rhs
  | .int _ | .float _ | .char _ | .string _ | .var _ | .sizeofType _ | .initList _ => .pure

theorem registerImplicitCallsExprs_respects (names : List String) :
    (exprs : List Expr) → Respects R (registerImplicitCallsExprs names exprs)
  | []            => .pure
  | expr :: exprs =>
    .bind (registerImplicitCallsExpr_respects names expr) fun _ =>
      registerImplicitCallsExprs_respects names exprs

end

attribute [grind ←] registerImplicitCallsExpr_respects

@[grind ←]
theorem maybeRegisterImplicitCallsExpr_respects (names expr) :
    Respects R (maybeRegisterImplicitCallsExpr names expr) := by
  unfold maybeRegisterImplicitCallsExpr
  grind

@[grind ←]
theorem registerImplicitCallsDecls_respects (names decls) :
    Respects R (registerImplicitCallsDecls names decls) := by
  induction decls generalizing names <;> unfold registerImplicitCallsDecls <;> grind

@[grind ←]
theorem registerForInitImplicitCalls_respects (names init) :
    Respects R (registerForInitImplicitCalls names init) := by
  unfold registerForInitImplicitCalls
  grind

mutual

theorem registerImplicitCallsStmt_respects (names : List String) :
    (stmt : Stmt) → Respects R (registerImplicitCallsStmt names stmt)
  | .sIf cond yes no         => by
    have hy := registerImplicitCalls_respects names yes
    have hn := registerImplicitCalls_respects names no
    unfold registerImplicitCallsStmt
    grind
  | .sWhile _ body           => by
    have hb := registerImplicitCalls_respects names body
    unfold registerImplicitCallsStmt
    grind
  | .sDoWhile body _         => by
    have hb := registerImplicitCalls_respects names body
    unfold registerImplicitCallsStmt
    grind
  | .sFor _ _ _ body         => by
    have hb names := registerImplicitCalls_respects names body
    unfold registerImplicitCallsStmt
    grind
  | .sSwitch _ body          => by
    have hb := registerImplicitCallsSwitch_respects names body
    unfold registerImplicitCallsStmt
    grind
  | .sBlock body             => by
    have hb := registerImplicitCalls_respects names body
    unfold registerImplicitCallsStmt
    grind
  | .sDecl _ | .sDecls _ | .sTypedef | .sReturn _ | .sExpr _ | .sCase _ | .sDefault | .sBreak | .sContinue
  | .sGoto _ | .sLabel _     => by
    unfold registerImplicitCallsStmt
    grind

theorem registerImplicitCalls_respects (names : List String) :
    (stmts : List Stmt) → Respects R (registerImplicitCalls names stmts)
  | []           => .pure
  | stmt :: rest =>
    .bind (registerImplicitCallsStmt_respects names stmt) fun names => registerImplicitCalls_respects names rest

theorem registerImplicitCallsSwitch_respects (names : List String) :
    (stmts : List Stmt) → Respects R (registerImplicitCallsSwitch names stmts)
  | []           => .pure
  | stmt :: rest => by
    have hs : Respects R (registerImplicitCallsStmt names stmt) := registerImplicitCallsStmt_respects names stmt
    have hr names := registerImplicitCalls_respects names rest
    unfold registerImplicitCallsSwitch
    split
    case h_1 _ h =>
      cases h
      -- The block is run by the statement that it is.
      exact fun _ _ _ _ hb => hs <| run_value_bind_iff.mpr ⟨_, _, hb, run_value_pure_iff.mpr ⟨rfl, rfl⟩⟩
    all_goals grind

end

end Symbols
end Hcc
