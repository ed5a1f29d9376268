import Hcc.Lower.Statement

open Stateful

namespace Hcc

-- The instructions of statements that do not affect the control flow.
def straightInstrs (ex : ExprLowering) : Stmt → Option (ExprM (List Instr))
  | .sDecl decl   => some <| ex.lowerDecl decl.type decl.name decl.init
  | .sDecls decls => some <| lowerDecls ex decls
  | .sTypedef     => some <| return []
  | .sExpr expr   => some <| ex.lowerSideEffect expr
  | _             => none

section Cases

variable (ex : ExprLowering)

-- The operators that `lowerConditionBlock` turns into control flow, or into a comparing branch.
def isConditionOperator : Expr → Bool
  | .binary op _ _ => op = "&&" || op = "||" || isBranchComparisonOpString op
  | .unary op _    => op = "!"
  | _              => false

-- The successful runs of `lowerConditionBlock`.
inductive CondRun : BlockId → List Instr → Expr → BlockId → BlockId → CompileState →
    List BasicBlock → CompileState → Prop
  | value {cond : Expr} :
    isConditionOperator cond = false →
    Run (onExprs (ex.lowerExpr cond)) st (condInstrs, op) st' →
    CondRun bid instrs cond trueId falseId st [⟨bid, instrs ++ condInstrs, .branch op trueId falseId⟩] st'
  | compare :
    isBranchComparisonOpString op →
    Run (onExprs (ex.lowerBranchComparison op left right)) st (condInstrs, iop, leftOp, rightOp) st' →
    CondRun bid instrs (.binary op left right) trueId falseId st
      [⟨bid, instrs ++ condInstrs, .branchCmp iop leftOp rightOp trueId falseId⟩] st'
  | and :
    Run freshBlock st rightId st₁ →
    CondRun bid instrs left rightId falseId st₁ leftBlocks st₂ →
    CondRun rightId [] right trueId falseId st₂ rightBlocks st' →
    CondRun bid instrs (.binary "&&" left right) trueId falseId st (leftBlocks ++ rightBlocks) st'
  | or :
    Run freshBlock st rightId st₁ →
    CondRun bid instrs left trueId rightId st₁ leftBlocks st₂ →
    CondRun rightId [] right trueId falseId st₂ rightBlocks st' →
    CondRun bid instrs (.binary "||" left right) trueId falseId st (leftBlocks ++ rightBlocks) st'
  | not :
    CondRun bid instrs value falseId trueId st blocks st' →
    CondRun bid instrs (.unary "!" value) trueId falseId st blocks st'

variable (lower : BlockId → List Instr → List Stmt → Terminator → CompileM (List BasicBlock))

-- The successful runs of `lowerForLoop`.
inductive ForRun (bid : BlockId) (instrs : List Instr) (init : ForInit) (cond step : Option Expr)
    (body : List Stmt) (restId : BlockId) :
    CompileState → List BasicBlock → CompileState → Prop
  | mk (initInstrs stepInstrs : List Instr) (condId bodyId stepId : BlockId) :
    Run (onExprs (lowerForInit ex init)) st initInstrs st₁ →
    Run freshBlock st₁ condId st₂ →
    Run freshBlock st₂ bodyId st₃ →
    Run freshBlock st₃ stepId st₄ →
    Run (lowerLoopConditionBlocks ex cond condId bodyId restId) st₄ condBlocks st₅ →
    Run (onExprs (step.elim (pure []) ex.lowerSideEffect)) st₅ stepInstrs st₆ →
    Run (withLoopTargets restId stepId (lower bodyId [] body (.jump stepId))) st₆ bodyBlocks st' →
    ForRun bid instrs init cond step body restId st
      (⟨bid, instrs ++ initInstrs, .jump condId⟩ :: condBlocks ++ bodyBlocks ++
        [⟨stepId, stepInstrs, .jump condId⟩]) st'

-- The successful runs of `lowerStatementsFrom.step`.
inductive StepRun (bid : BlockId) (instrs : List Instr) (term : Terminator) :
    List Stmt → CompileState → List BasicBlock → CompileState → Prop
  | nil : StepRun bid instrs term [] st [⟨bid, instrs, term⟩] st
  | returnNone :
    Run (lowerUnreachableLabels lower rest term) st tail st' →
    StepRun bid instrs term (.sReturn none :: rest) st (⟨bid, instrs, .ret none⟩ :: tail) st'
  | returnSome (retInstrs coerceInstrs : List Instr) (retOp : Operand) :
    Run (onExprs (ex.lowerExpr expr)) st (retInstrs, op) st₁ →
    Run (onExprs (coerceReturnOperand ex op)) st₁ (coerceInstrs, retOp) st₂ →
    Run (lowerUnreachableLabels lower rest term) st₂ tail st' →
    StepRun bid instrs term (.sReturn (some expr) :: rest) st
      (⟨bid, instrs ++ retInstrs ++ coerceInstrs, .ret (some retOp)⟩ :: tail) st'
  | lastBlock :
    Run (withVarScope (lower bid instrs body term)) st blocks st' →
    StepRun bid instrs term [.sBlock body] st blocks st'
  | block (restId : BlockId) :
    rest ≠ [] →
    Run freshBlock st restId st₁ →
    Run (withVarScope (lower bid instrs body (.jump restId))) st₁ bodyBlocks st₂ →
    Run (lower restId [] rest term) st₂ restBlocks st' →
    StepRun bid instrs term (.sBlock body :: rest) st (bodyBlocks ++ restBlocks) st'
  | straight :
    straightInstrs ex stmt = some action →
    Run (onExprs action) st stmtInstrs st₁ →
    Run (lower bid (instrs ++ stmtInstrs) rest term) st₁ blocks st' →
    StepRun bid instrs term (stmt :: rest) st blocks st'
  | whileLoop {cond : Expr} (condId bodyId restId : BlockId) :
    Run freshBlock st condId st₁ →
    Run freshBlock st₁ bodyId st₂ →
    Run freshBlock st₂ restId st₃ →
    Run (lowerConditionBlock ex condId [] cond bodyId restId) st₃ condBlocks st₄ →
    Run (withLoopTargets restId condId (lower bodyId [] body (.jump condId))) st₄ bodyBlocks st₅ →
    Run (lower restId [] rest term) st₅ restBlocks st' →
    StepRun bid instrs term (.sWhile cond body :: rest) st
      (⟨bid, instrs, .jump condId⟩ :: condBlocks ++ bodyBlocks ++ restBlocks) st'
  | doWhile {cond : Expr} (bodyId condId restId : BlockId) :
    Run freshBlock st bodyId st₁ →
    Run freshBlock st₁ condId st₂ →
    Run freshBlock st₂ restId st₃ →
    Run (lowerConditionBlock ex condId [] cond bodyId restId) st₃ condBlocks st₄ →
    Run (withLoopTargets restId condId (lower bodyId [] body (.jump condId))) st₄ bodyBlocks st₅ →
    Run (lower restId [] rest term) st₅ restBlocks st' →
    StepRun bid instrs term (.sDoWhile body cond :: rest) st
      (⟨bid, instrs, .jump bodyId⟩ :: bodyBlocks ++ condBlocks ++ restBlocks) st'
  | forDecls {cond : Option Expr} (restId : BlockId) :
    Run freshBlock st restId st₁ →
    Run (withVarScope (lowerForLoop ex lower bid instrs (.decls decls) cond step body restId)) st₁
      loopBlocks st₂ →
    Run (lower restId [] rest term) st₂ restBlocks st' →
    StepRun bid instrs term (.sFor (.decls decls) cond step body :: rest) st
      (loopBlocks ++ restBlocks) st'
  | forLoop {cond : Option Expr} (restId : BlockId) :
    (∀ decls, init ≠ .decls decls) →
    Run freshBlock st restId st₁ →
    Run (lowerForLoop ex lower bid instrs init cond step body restId) st₁ loopBlocks st₂ →
    Run (lower restId [] rest term) st₂ restBlocks st' →
    StepRun bid instrs term (.sFor init cond step body :: rest) st (loopBlocks ++ restBlocks) st'
  | switch (valueInstrs : List Instr) (valueOp : Operand) (dispatchId restId : BlockId) :
    Run (onExprs (ex.lowerExpr value)) st (valueInstrs, valueOp) st₁ →
    Run freshBlock st₁ dispatchId st₂ →
    Run freshBlock st₂ restId st₃ →
    Run (lowerSwitch ex lower dispatchId restId valueOp body) st₃ switchBlocks st₄ →
    Run (lower restId [] rest term) st₄ restBlocks st' →
    StepRun bid instrs term (.sSwitch value body :: rest) st
      (⟨bid, instrs ++ valueInstrs, .jump dispatchId⟩ :: switchBlocks ++ restBlocks) st'
  | goto (target : BlockId) :
    Run (labelBlock name) st target st₁ →
    Run (lowerUnreachableLabels lower rest term) st₁ tail st' →
    StepRun bid instrs term (.sGoto name :: rest) st (⟨bid, instrs, .jump target⟩ :: tail) st'
  | label (target : BlockId) :
    Run (labelBlock name) st target st₁ →
    Run (lower target [] rest term) st₁ blocks st' →
    StepRun bid instrs term (.sLabel name :: rest) st (⟨bid, instrs, .jump target⟩ :: blocks) st'
  | ite {cond : Expr} {no : List Stmt} (yesId noId restId : BlockId) :
    Run freshBlock st yesId st₁ →
    Run freshBlock st₁ noId st₂ →
    Run (lowerIfRestTarget lower rest term) st₂ (restId, restBlocks) st₃ →
    Run (lower yesId [] yes (.jump restId)) st₃ yesBlocks st₄ →
    Run (lowerIfNoBlocks lower no noId restId) st₄ noBlocks st₅ →
    Run (lowerConditionBlock ex bid instrs cond yesId (if no.isEmpty then restId else noId)) st₅
      condBlocks st' →
    StepRun bid instrs term (.sIf cond yes no :: rest) st
      (condBlocks ++ yesBlocks ++ noBlocks ++ restBlocks) st'
  | breaks (target : BlockId) :
    st.breakTargets.head? = some target →
    Run (lowerUnreachableLabels lower rest term) st tail st' →
    StepRun bid instrs term (.sBreak :: rest) st (⟨bid, instrs, .jump target⟩ :: tail) st'
  | continues (target : BlockId) :
    st.continueTargets.head? = some target →
    Run (lowerUnreachableLabels lower rest term) st tail st' →
    StepRun bid instrs term (.sContinue :: rest) st (⟨bid, instrs, .jump target⟩ :: tail) st'

end Cases

section Inversion

variable {ex : ExprLowering}
variable {lower : BlockId → List Instr → List Stmt → Terminator → CompileM (List BasicBlock)}
variable {st st' : CompileState} {b bid restId : BlockId}

theorem Run.requireBreakTarget (hr : Run requireBreakTarget st b st') :
    st = st' ∧ st.breakTargets.head? = some b := by
  simp only [Hcc.requireBreakTarget, Hcc.currentBreakTarget, run_bind_iff, run_get_iff, run_pure_iff] at hr
  obtain ⟨_, _, ⟨_, _, ⟨rfl, rfl⟩, rfl, rfl⟩, hr⟩ := hr
  split at hr
  case h_1 hb => exact ⟨(run_pure_iff.mp hr).right, (run_pure_iff.mp hr).left ▸ hb⟩
  case h_2    => exact absurd hr not_run_throw

theorem Run.requireContinueTarget (hr : Run requireContinueTarget st b st') :
    st = st' ∧ st.continueTargets.head? = some b := by
  simp only [Hcc.requireContinueTarget, Hcc.currentContinueTarget, run_bind_iff, run_get_iff,
    run_pure_iff] at hr
  obtain ⟨_, _, ⟨_, _, ⟨rfl, rfl⟩, rfl, rfl⟩, hr⟩ := hr
  split at hr
  case h_1 hb => exact ⟨(run_pure_iff.mp hr).right, (run_pure_iff.mp hr).left ▸ hb⟩
  case h_2    => exact absurd hr not_run_throw

theorem Run.onExprs_pure : Run (onExprs (pure a)) st a st :=
  run_within_iff.mpr ⟨_, run_pure_iff.mpr ⟨rfl, rfl⟩, rfl⟩

theorem lowerValueConditionBlock_cases {cond : Expr} (hn : isConditionOperator cond = false)
    (hr : Run (lowerValueConditionBlock ex bid instrs cond trueId falseId) st blocks st') :
    CondRun ex bid instrs cond trueId falseId st blocks st' := by
  simp only [lowerValueConditionBlock, run_bind_iff, run_pure_iff] at hr
  obtain ⟨⟨_, _⟩, _, he, rfl, rfl⟩ := hr
  exact .value hn he

theorem lowerConditionBlock_cases {cond : Expr}
    (hr : Run (lowerConditionBlock ex bid instrs cond trueId falseId) st blocks st') :
    CondRun ex bid instrs cond trueId falseId st blocks st' := by
  fun_induction lowerConditionBlock generalizing st blocks st'
  case case1 hl hr' =>
    simp only [run_bind_iff, run_pure_iff] at hr
    obtain ⟨_, _, hf, _, _, hl', _, _, hr, rfl, rfl⟩ := hr
    exact .and hf (hl _ hl') (hr' _ hr)
  case case2 hl hr' =>
    simp only [run_bind_iff, run_pure_iff] at hr
    obtain ⟨_, _, hf, _, _, hl', _, _, hr, rfl, rfl⟩ := hr
    exact .or hf (hl _ hl') (hr' _ hr)
  case case3 hc =>
    simp only [run_bind_iff, run_pure_iff] at hr
    obtain ⟨⟨_, _, _, _⟩, _, he, rfl, rfl⟩ := hr
    exact .compare hc he
  case case4 ha ho hc => exact lowerValueConditionBlock_cases (by simp [isConditionOperator, *]) hr
  case case5 hi => exact .not <| hi hr
  case case6 hn => exact lowerValueConditionBlock_cases (by simp [isConditionOperator, *]) hr
  case case7 hb hu =>
    refine lowerValueConditionBlock_cases ?_ hr
    unfold isConditionOperator
    split
    case h_1 => exact absurd rfl <| hb _ _ _
    case h_2 => exact absurd rfl <| hu _ _
    case h_3 => rfl

theorem lowerForLoop_cases {cond : Option Expr}
    (hr : Run (lowerForLoop ex lower bid instrs init cond step body restId) st blocks st') :
    ForRun ex lower bid instrs init cond step body restId st blocks st' := by
  simp only [lowerForLoop, run_bind_iff] at hr
  obtain ⟨_, _, hi, _, _, hc, _, _, hb, _, _, hs, _, _, hcs, hr⟩ := hr
  cases step <;> simp only [run_bind_iff, run_pure_iff] at hr
  case none =>
    obtain ⟨_, _, ⟨rfl, rfl⟩, _, _, hbs, rfl, rfl⟩ := hr
    exact .mk _ _ _ _ _ hi hc hb hs hcs Run.onExprs_pure hbs
  case some =>
    obtain ⟨_, _, hss, _, _, hbs, rfl, rfl⟩ := hr
    exact .mk _ _ _ _ _ hi hc hb hs hcs hss hbs

theorem lowerStatementsFrom.step_cases (hr : Run (step ex lower bid instrs stmts term) st blocks st') :
    StepRun ex lower bid instrs term stmts st blocks st' := by
  unfold step at hr
  split at hr
  case h_1 =>
    obtain ⟨rfl, rfl⟩ := run_pure_iff.mp hr
    exact .nil
  case h_4 => exact .lastBlock hr
  case h_8 => exact .straight rfl Run.onExprs_pure <| by simpa using hr
  case h_19 => exact absurd hr not_run_throw
  all_goals simp only [run_bind_iff, run_pure_iff] at hr
  case h_2 =>
    obtain ⟨_, _, ht, rfl, rfl⟩ := hr
    exact .returnNone ht
  case h_3 =>
    obtain ⟨_, _, he, _, _, hc, _, _, ht, rfl, rfl⟩ := hr
    exact .returnSome _ _ _ he hc ht
  case h_5 hn =>
    obtain ⟨_, _, hi, _, _, hb, _, _, hs, rfl, rfl⟩ := hr
    exact .block _ hn hi hb hs
  case h_6 =>
    obtain ⟨_, _, hd, hs⟩ := hr
    exact .straight rfl hd hs
  case h_7 =>
    obtain ⟨_, _, hd, hs⟩ := hr
    exact .straight rfl hd hs
  case h_9 =>
    obtain ⟨_, _, hd, hs⟩ := hr
    exact .straight rfl hd hs
  case h_10 =>
    obtain ⟨_, _, hc, _, _, hb, _, _, hi, _, _, hcs, _, _, hbs, _, _, hs, rfl, rfl⟩ := hr
    exact .whileLoop _ _ _ hc hb hi hcs hbs hs
  case h_11 =>
    obtain ⟨_, _, hb, _, _, hc, _, _, hi, _, _, hcs, _, _, hbs, _, _, hs, rfl, rfl⟩ := hr
    exact .doWhile _ _ _ hb hc hi hcs hbs hs
  case h_12 =>
    obtain ⟨_, _, hi, hr⟩ := hr
    split at hr <;> simp only [run_bind_iff, run_pure_iff] at hr
    case h_1 =>
      obtain ⟨_, _, hl, _, _, hs, rfl, rfl⟩ := hr
      exact .forDecls _ hi hl hs
    case h_2 hn =>
      obtain ⟨_, _, hl, _, _, hs, rfl, rfl⟩ := hr
      exact .forLoop _ hn hi hl hs
  case h_13 =>
    obtain ⟨_, _, hv, _, _, hd, _, _, hi, _, _, hc, _, _, hs, rfl, rfl⟩ := hr
    exact .switch _ _ _ _ hv hd hi hc hs
  case h_14 =>
    obtain ⟨_, _, hl, _, _, ht, rfl, rfl⟩ := hr
    exact .goto _ hl ht
  case h_15 =>
    obtain ⟨_, _, hl, _, _, hs, rfl, rfl⟩ := hr
    exact .label _ hl hs
  case h_16 =>
    obtain ⟨_, _, hy, _, _, hn, ⟨_, _⟩, _, hi, _, _, hys, _, _, hns, _, _, hcs, rfl, rfl⟩ := hr
    exact .ite _ _ _ hy hn hi hys hns hcs
  case h_17 =>
    obtain ⟨_, _, hb, _, _, ht, rfl, rfl⟩ := hr
    obtain ⟨rfl, hh⟩ := Run.requireBreakTarget hb
    exact .breaks _ hh ht
  case h_18 =>
    obtain ⟨_, _, hc, _, _, ht, rfl, rfl⟩ := hr
    obtain ⟨rfl, hh⟩ := Run.requireContinueTarget hc
    exact .continues _ hh ht

end Inversion
end Hcc
