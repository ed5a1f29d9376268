import Hcc.Compile.Basic

namespace Hcc

open Stateful

structure SwitchClause where
  label : Option Expr
  body  : List Stmt

section Switch

def switchBodyStatements : List Stmt → List Stmt
  | [.sBlock stmts] => stmts
  | body            => body

def collectSwitchClauseFinishOne (currentLabel : Option (Option Expr)) (currentBody : List Stmt)
    (clauses : List SwitchClause) : List SwitchClause :=
  match currentLabel with
  | none       => clauses
  | some label => ⟨label, currentBody.reverse⟩ :: clauses

-- Statements before the first label are dropped.
def collectSwitchClausesFinish (currentLabel : Option (Option Expr)) (currentBody : List Stmt)
    (clauses : List SwitchClause) : List Stmt → List SwitchClause
  | []                 => collectSwitchClauseFinishOne currentLabel currentBody clauses
  | .sCase expr :: rest =>
    collectSwitchClausesFinish (some (some expr)) []
      (collectSwitchClauseFinishOne currentLabel currentBody clauses) rest
  | .sDefault :: rest  =>
    collectSwitchClausesFinish (some none) []
      (collectSwitchClauseFinishOne currentLabel currentBody clauses) rest
  | stmt :: rest       =>
    match currentLabel with
    | none   => collectSwitchClausesFinish currentLabel currentBody clauses rest
    | some _ => collectSwitchClausesFinish currentLabel (stmt :: currentBody) clauses rest

def collectSwitchClauses (stmts : List Stmt) : List SwitchClause :=
  (collectSwitchClausesFinish none [] [] stmts).reverse

def freshBlocks : Nat → CompileM (List BlockId)
  | 0         => return []
  | count + 1 => do
    let first ← freshBlock
    let rest ← freshBlocks count
    return first :: rest

def switchDefaultTarget (restId : BlockId) (clauses : List (SwitchClause × BlockId)) : BlockId :=
  match clauses.find? (·.1.label.isNone) with
  | none          => restId
  | some (_, bid) => bid

def switchCases (clauses : List (SwitchClause × BlockId)) : List (Expr × BlockId) :=
  clauses.filterMap fun (clause, bid) => clause.label.map (·, bid)

end Switch

-- The lowering of expressions and declarations.
structure ExprLowering where
  lowerExpr             : Expr → ExprM (List Instr × Operand)
  lowerSideEffect       : Expr → ExprM (List Instr)
  lowerDecl             : CType → String → Option Expr → ExprM (List Instr)
  lowerBranchComparison : String → Expr → Expr → ExprM (List Instr × BinOp × Operand × Operand)
  coerceScalar          : CType → Operand → ExprM (List Instr × Operand)

def requireBreakTarget : CompileM BlockId := do
  match ← currentBreakTarget with
  | some bid => return bid
  | none     => throw "break outside loop or switch"

def requireContinueTarget : CompileM BlockId := do
  match ← currentContinueTarget with
  | some bid => return bid
  | none     => throw "continue outside loop"

def defaultReturnTerm : CompileM Terminator := do
  match ← onExprs currentReturnType with
  | some .void => return .ret none
  | _          => return .ret (some (.imm 0))

def isBranchComparisonOpString (op : String) : Bool :=
  op ∈ ["==", "!=", "<", "<=", ">", ">="]

section

variable (ex : ExprLowering)

def coerceReturnOperand (op : Operand) : ExprM (List Instr × Operand) := do
  match ← currentReturnType with
  | some .void => return ([], op)
  | some type  => ex.coerceScalar type op
  | none       => return ([], op)

def lowerDecls (decls : List Decl) : ExprM (List Instr) := do
  let lowered ← decls.mapM fun decl => ex.lowerDecl decl.type decl.name decl.init
  return lowered.flatten

def lowerForInit : ForInit → ExprM (List Instr)
  | .noInit      => return []
  | .expr expr   => ex.lowerSideEffect expr
  | .decls decls => lowerDecls ex decls

def lowerValueConditionBlock (bid : BlockId) (instrs : List Instr) (cond : Expr)
    (trueId falseId : BlockId) : CompileM (List BasicBlock) := do
  let (condInstrs, condOp) ← onExprs (ex.lowerExpr cond)
  return [⟨bid, instrs ++ condInstrs, .branch condOp trueId falseId⟩]

def lowerConditionBlock (bid : BlockId) (instrs : List Instr) (cond : Expr)
    (trueId falseId : BlockId) : CompileM (List BasicBlock) :=
  match cond with
  | .binary op left right =>
    if op = "&&" then do
      let rightId ← freshBlock
      let leftBlocks ← lowerConditionBlock bid instrs left rightId falseId
      let rightBlocks ← lowerConditionBlock rightId [] right trueId falseId
      return leftBlocks ++ rightBlocks
    else if op = "||" then do
      let rightId ← freshBlock
      let leftBlocks ← lowerConditionBlock bid instrs left trueId rightId
      let rightBlocks ← lowerConditionBlock rightId [] right trueId falseId
      return leftBlocks ++ rightBlocks
    else if isBranchComparisonOpString op then do
      let (condInstrs, iop, leftOp, rightOp) ← onExprs (ex.lowerBranchComparison op left right)
      return [⟨bid, instrs ++ condInstrs, .branchCmp iop leftOp rightOp trueId falseId⟩]
    else lowerValueConditionBlock ex bid instrs (.binary op left right) trueId falseId
  | .unary op value =>
    if op = "!" then lowerConditionBlock bid instrs value falseId trueId
    else lowerValueConditionBlock ex bid instrs (.unary op value) trueId falseId
  | cond => lowerValueConditionBlock ex bid instrs cond trueId falseId

def lowerLoopConditionBlocks (condExpr : Option Expr) (condId bodyId restId : BlockId) :
    CompileM (List BasicBlock) :=
  match condExpr with
  | none      => return [⟨condId, [], .jump bodyId⟩]
  | some cond => lowerConditionBlock ex condId [] cond bodyId restId

def lowerSwitchDispatch (bid : BlockId) (valueOp : Operand) (defaultTarget : BlockId) :
    List (Expr × BlockId) → CompileM (List BasicBlock)
  | []                             => return [⟨bid, [], .jump defaultTarget⟩]
  | [(caseExpr, target)]           => do
    let (caseInstrs, caseOp) ← onExprs (ex.lowerExpr caseExpr)
    return [⟨bid, caseInstrs, .branchCmp .eq valueOp caseOp target defaultTarget⟩]
  | (caseExpr, target) :: tailCases => do
    let nextId ← freshBlock
    let (caseInstrs, caseOp) ← onExprs (ex.lowerExpr caseExpr)
    let restBlocks ← lowerSwitchDispatch nextId valueOp defaultTarget tailCases
    return ⟨bid, caseInstrs, .branchCmp .eq valueOp caseOp target nextId⟩ :: restBlocks

section

variable (lowerStatementsFrom :
  BlockId → List Instr → List Stmt → Terminator → CompileM (List BasicBlock))

def lowerIfJoinTarget (rest : List Stmt) (defaultTerm : Terminator) :
    CompileM (BlockId × List BasicBlock) := do
  let joinId ← freshBlock
  let blocks ← lowerStatementsFrom joinId [] rest defaultTerm
  return (joinId, blocks)

def lowerIfRestTarget (rest : List Stmt) (defaultTerm : Terminator) :
    CompileM (BlockId × List BasicBlock) :=
  match rest, defaultTerm with
  | [], .jump target => return (target, [])
  | _,  _            => lowerIfJoinTarget lowerStatementsFrom rest defaultTerm

def lowerIfNoBlocks (no : List Stmt) (noId restId : BlockId) : CompileM (List BasicBlock) :=
  match no with
  | [] => return []
  | _  => lowerStatementsFrom noId [] no (.jump restId)

def lowerUnreachableLabels (stmts : List Stmt) (defaultTerm : Terminator) :
    CompileM (List BasicBlock) :=
  match stmts with
  | []                  => return []
  | .sLabel name :: rest => do
    let target ← labelBlock name
    lowerStatementsFrom target [] rest defaultTerm
  | _ :: rest           => lowerUnreachableLabels rest defaultTerm

def lowerForLoop (bid : BlockId) (instrs : List Instr) (init : ForInit) (condExpr stepExpr : Option Expr)
    (body : List Stmt) (restId : BlockId) : CompileM (List BasicBlock) := do
  let initInstrs ← onExprs (lowerForInit ex init)
  let condId ← freshBlock
  let bodyId ← freshBlock
  let stepId ← freshBlock
  let condBlocks ← lowerLoopConditionBlocks ex condExpr condId bodyId restId
  let stepInstrs ← match stepExpr with
    | none      => pure []
    | some step => onExprs (ex.lowerSideEffect step)
  let bodyBlocks ← withLoopTargets restId stepId (lowerStatementsFrom bodyId [] body (.jump stepId))
  return ⟨bid, instrs ++ initInstrs, .jump condId⟩ :: condBlocks ++ bodyBlocks ++
    [⟨stepId, stepInstrs, .jump condId⟩]

def lowerSwitchClauses (restId : BlockId) : List (SwitchClause × BlockId) → CompileM (List BasicBlock)
  | []                    => return []
  | (clause, bid) :: rest => do
    let fallthrough := match rest with
      | []               => restId
      | (_, nextId) :: _ => nextId
    let bodyBlocks ← lowerStatementsFrom bid [] clause.body (.jump fallthrough)
    let restBlocks ← lowerSwitchClauses restId rest
    return bodyBlocks ++ restBlocks

def lowerSwitch (dispatchId restId : BlockId) (valueOp : Operand) (body : List Stmt) :
    CompileM (List BasicBlock) := do
  let clauses := collectSwitchClauses (switchBodyStatements body)
  let clauseIds ← freshBlocks clauses.length
  let clausePairs := clauses.zip clauseIds
  let defaultTarget := switchDefaultTarget restId clausePairs
  let dispatchBlocks ← lowerSwitchDispatch ex dispatchId valueOp defaultTarget (switchCases clausePairs)
  let bodyBlocks ← withBreakTarget restId (lowerSwitchClauses lowerStatementsFrom restId clausePairs)
  return dispatchBlocks ++ bodyBlocks

-- The lowering of a list of statements, given the lowering of nested and subsequent statements.
def lowerStatementsFrom.step (bid : BlockId) (instrs : List Instr) (stmts : List Stmt)
    (defaultTerm : Terminator) : CompileM (List BasicBlock) :=
  match stmts with
  | [] => return [⟨bid, instrs, defaultTerm⟩]
  | .sReturn none :: rest => do
    let tailBlocks ← lowerUnreachableLabels lowerStatementsFrom rest defaultTerm
    return ⟨bid, instrs, .ret none⟩ :: tailBlocks
  | .sReturn (some expr) :: rest => do
    let (retInstrs, op) ← onExprs (ex.lowerExpr expr)
    let (coerceInstrs, retOp) ← onExprs (coerceReturnOperand ex op)
    let tailBlocks ← lowerUnreachableLabels lowerStatementsFrom rest defaultTerm
    return ⟨bid, instrs ++ retInstrs ++ coerceInstrs, .ret (some retOp)⟩ :: tailBlocks
  | [.sBlock body] => withVarScope (lowerStatementsFrom bid instrs body defaultTerm)
  | .sBlock body :: rest => do
    let restId ← freshBlock
    let bodyBlocks ← withVarScope (lowerStatementsFrom bid instrs body (.jump restId))
    let restBlocks ← lowerStatementsFrom restId [] rest defaultTerm
    return bodyBlocks ++ restBlocks
  | .sDecl decl :: rest => do
    let declInstrs ← onExprs (ex.lowerDecl decl.type decl.name decl.init)
    lowerStatementsFrom bid (instrs ++ declInstrs) rest defaultTerm
  | .sDecls decls :: rest => do
    let declInstrs ← onExprs (lowerDecls ex decls)
    lowerStatementsFrom bid (instrs ++ declInstrs) rest defaultTerm
  | .sTypedef :: rest => lowerStatementsFrom bid instrs rest defaultTerm
  | .sExpr expr :: rest => do
    let exprInstrs ← onExprs (ex.lowerSideEffect expr)
    lowerStatementsFrom bid (instrs ++ exprInstrs) rest defaultTerm
  | .sWhile cond body :: rest => do
    let condId ← freshBlock
    let bodyId ← freshBlock
    let restId ← freshBlock
    let condBlocks ← lowerConditionBlock ex condId [] cond bodyId restId
    let bodyBlocks ← withLoopTargets restId condId (lowerStatementsFrom bodyId [] body (.jump condId))
    let restBlocks ← lowerStatementsFrom restId [] rest defaultTerm
    return ⟨bid, instrs, .jump condId⟩ :: condBlocks ++ bodyBlocks ++ restBlocks
  | .sDoWhile body cond :: rest => do
    let bodyId ← freshBlock
    let condId ← freshBlock
    let restId ← freshBlock
    let condBlocks ← lowerConditionBlock ex condId [] cond bodyId restId
    let bodyBlocks ← withLoopTargets restId condId (lowerStatementsFrom bodyId [] body (.jump condId))
    let restBlocks ← lowerStatementsFrom restId [] rest defaultTerm
    return ⟨bid, instrs, .jump bodyId⟩ :: bodyBlocks ++ condBlocks ++ restBlocks
  | .sFor init condExpr stepExpr body :: rest => do
    let restId ← freshBlock
    let loopBlocks ← match init with
      | .decls _ =>
        withVarScope (lowerForLoop ex lowerStatementsFrom bid instrs init condExpr stepExpr body restId)
      | _        => lowerForLoop ex lowerStatementsFrom bid instrs init condExpr stepExpr body restId
    let restBlocks ← lowerStatementsFrom restId [] rest defaultTerm
    return loopBlocks ++ restBlocks
  | .sSwitch value body :: rest => do
    let (valueInstrs, valueOp) ← onExprs (ex.lowerExpr value)
    let dispatchId ← freshBlock
    let restId ← freshBlock
    let switchBlocks ← lowerSwitch ex lowerStatementsFrom dispatchId restId valueOp body
    let restBlocks ← lowerStatementsFrom restId [] rest defaultTerm
    return ⟨bid, instrs ++ valueInstrs, .jump dispatchId⟩ :: switchBlocks ++ restBlocks
  | .sGoto name :: rest => do
    let target ← labelBlock name
    let tailBlocks ← lowerUnreachableLabels lowerStatementsFrom rest defaultTerm
    return ⟨bid, instrs, .jump target⟩ :: tailBlocks
  | .sLabel name :: rest => do
    let target ← labelBlock name
    let blocks ← lowerStatementsFrom target [] rest defaultTerm
    return ⟨bid, instrs, .jump target⟩ :: blocks
  | .sIf cond yes no :: rest => do
    let yesId ← freshBlock
    let noId ← freshBlock
    let (restId, restBlocks) ← lowerIfRestTarget lowerStatementsFrom rest defaultTerm
    let noTarget := if no.isEmpty then restId else noId
    let yesBlocks ← lowerStatementsFrom yesId [] yes (.jump restId)
    let noBlocks ← lowerIfNoBlocks lowerStatementsFrom no noId restId
    let condBlocks ← lowerConditionBlock ex bid instrs cond yesId noTarget
    return condBlocks ++ yesBlocks ++ noBlocks ++ restBlocks
  | .sBreak :: rest => do
    let target ← requireBreakTarget
    let tailBlocks ← lowerUnreachableLabels lowerStatementsFrom rest defaultTerm
    return ⟨bid, instrs, .jump target⟩ :: tailBlocks
  | .sContinue :: rest => do
    let target ← requireContinueTarget
    let tailBlocks ← lowerUnreachableLabels lowerStatementsFrom rest defaultTerm
    return ⟨bid, instrs, .jump target⟩ :: tailBlocks
  | stmt :: _ => throw ("unsupported statement in lowering: " ++ renderStmtTag stmt)

end

def lowerStatementsFrom :
    (fuel : Nat) → BlockId → List Instr → List Stmt → Terminator → CompileM (List BasicBlock)
  | 0        => fun _ _ _ _ => outOfFuel
  | fuel + 1 => lowerStatementsFrom.step ex (lowerStatementsFrom fuel)

def lowerParams (index : Int) : List Param → ExprM (List Instr)
  | []            => return []
  | param :: rest => do
    let temp ← onValues freshTemp
    bindVar param.name temp param.type
    let instrs ← lowerParams (index + 1) rest
    return .param temp index :: instrs

def lowerFunctionBody (fuel : Nat) (name : String) (params : List Param) (body : List Stmt) :
    CompileM FunctionIr := do
  let bid ← freshBlock
  let paramInstrs ← onExprs (lowerParams 0 params)
  let defaultTerm ← defaultReturnTerm
  let blocks ← lowerStatementsFrom ex fuel bid paramInstrs body defaultTerm
  return ⟨name, blocks⟩

def lowerFunction (fuel : Nat) (name : String) (params : List Param) (body : List Stmt) :
    CompileM FunctionIr :=
  withErrorContext ("function " ++ name) <| withFunctionScope <| withCurrentFunction name <|
    lowerFunctionBody ex fuel name params body

end
end Hcc
