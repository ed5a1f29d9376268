import Hcc.Ast.Basic
import Hcc.Ir.Basic
import Hcc.Library.Stateful
import Hcc.SymbolTable.ScopeMap

namespace Hcc

open Stateful

-- The part of the state that is used by the lowering of expressions.
structure ValueState where
  nextTemp        : Nat := 0
  nextLabel       : Nat := 0
  dataPrefix      : String := "HCC_DATA"
  structs         : SymbolMap (Bool × List Field) := symbolMapEmpty
  structSizes     : SymbolMap Int := symbolMapEmpty
  structMembers   : SymbolMap (SymbolMap (CType × Int)) := symbolMapEmpty
  globals         : SymbolMap CType := symbolMapEmpty
  constants       : SymbolMap Int := symbolMapEmpty
  functions       : SymbolMap Unit := symbolMapEmpty
  functionTypes   : SymbolMap CType := symbolMapEmpty
  dataItems       : List DataItem := []
  targetBits      : Nat := 64
  currentFunction : Option String := none

abbrev Scope := ScopeMap (Temp × CType)

-- Declarations also bind variables.
structure ExprState extends ValueState where
  vars : Scope := scopeMapEmpty

-- The remaining fields control the emission of blocks.
structure CompileState extends ExprState where
  nextBlock       : Nat := 0
  labels          : SymbolMap BlockId := symbolMapEmpty
  breakTargets    : List BlockId := []
  continueTargets : List BlockId := []

-- Expressions read the variables, but they do not bind any.
abbrev ValueM := ReaderT Scope (Stateful ValueState String)
abbrev ExprM := Stateful ExprState String
abbrev CompileM := Stateful CompileState String

def onValues (action : ValueM α) : ExprM α :=
  fun st => do
    let (a, values) ← action st.vars st.toValueState
    return (a, { st with toValueState := values })

-- Computations on expressions do not have access to the fields that control the emission of blocks.
def onExprs (action : ExprM α) : CompileM α :=
  within CompileState.toExprState (fun st ex => { st with toExprState := ex }) action

def freshTemp : ValueM Temp := do
  let st ← get
  set { st with nextTemp := st.nextTemp + 1 }
  return ⟨st.nextTemp⟩

def freshLabel : ValueM String := do
  let st ← get
  set { st with nextLabel := st.nextLabel + 1 }
  return "L" ++ toString st.nextLabel

def freshDataLabel : ValueM String := do
  let label ← freshLabel
  return (← get).dataPrefix ++ "_" ++ label

def addDataItem (item : DataItem) : ValueM Unit :=
  modify fun st =>
    { st with dataItems := item :: st.dataItems.filter (·.label ≠ item.label) }

def bindStruct (name : String) (isUnion : Bool) (fields : List Field) : ValueM Unit :=
  modify fun st => { st with
    structs       := symbolMapInsert name (isUnion, fields) st.structs
    structSizes   := symbolMapDelete name st.structSizes
    structMembers := symbolMapDelete name st.structMembers }

def lookupVarMaybe (name : String) : ValueM (Option Temp) := do
  return (scopeMapLookup name (← read)).map Prod.fst

def lookupVarType (name : String) : ValueM (Option CType) := do
  return (scopeMapLookup name (← read)).map Prod.snd

def lookupGlobalType (name : String) : ValueM (Option CType) := do
  return symbolMapLookup name (← get).globals

def lookupConstant (name : String) : ValueM (Option Int) := do
  return symbolMapLookup name (← get).constants

def lookupFunction (name : String) : ValueM Bool := do
  return symbolMapMember name (← get).functions

def lookupFunctionType (name : String) : ValueM (Option CType) := do
  return symbolMapLookup name (← get).functionTypes

def lookupStruct (name : String) : ValueM (Option (Bool × List Field)) := do
  return symbolMapLookup name (← get).structs

def lookupStructSizeCache (name : String) : ValueM (Option Int) := do
  return symbolMapLookup name (← get).structSizes

def cacheStructSize (name : String) (size : Int) : ValueM Unit :=
  modify fun st => { st with structSizes := symbolMapInsert name size st.structSizes }

def lookupStructMemberCache (structName fieldName : String) : ValueM (Option (CType × Int)) := do
  match symbolMapLookup structName (← get).structMembers with
  | none         => return none
  | some members => return symbolMapLookup fieldName members

def cacheStructMember (structName fieldName : String) (info : CType × Int) : ValueM Unit :=
  modify fun st =>
    let members := (symbolMapLookup structName st.structMembers).getD symbolMapEmpty
    let members' := symbolMapInsert fieldName info members
    { st with structMembers := symbolMapInsert structName members' st.structMembers }

def targetWordSize : ValueM Int := do
  return if (← get).targetBits = 32 then 4 else 8

def currentFunctionName : ValueM (Option String) := do
  return (← get).currentFunction

def freshBlock : CompileM BlockId := do
  let st ← get
  set { st with nextBlock := st.nextBlock + 1 }
  return ⟨st.nextBlock⟩

def bindVar (name : String) (temp : Temp) (type : CType) : ExprM Unit :=
  modify fun st => { st with vars := scopeMapInsert name (temp, type) st.vars }

def currentReturnType : ExprM (Option CType) := do
  let st ← get
  match st.currentFunction with
  | none      => return none
  | some name =>
    match symbolMapLookup name st.functionTypes with
    | some (.func ret _) => return some ret
    | _                  => return none

def withCurrentFunction (name : String) (action : CompileM α) : CompileM α :=
  action |> within (fun st => { st with currentFunction := some name })
    fun st st' => { st' with currentFunction := st.currentFunction }

def withFunctionScope (action : CompileM α) : CompileM α :=
  action |> within
    (fun st => { st with vars := scopeMapEmpty, labels := symbolMapEmpty, breakTargets := [],
                         continueTargets := [] })
    fun st st' => { st' with vars := st.vars, labels := st.labels, breakTargets := st.breakTargets,
                             continueTargets := st.continueTargets }

def withVarScope (action : CompileM α) : CompileM α :=
  action |> within (fun st => { st with vars := scopeMapEnter st.vars })
    fun _ st' => { st' with vars := scopeMapLeave st'.vars }

def withLoopTargets (breakTarget continueTarget : BlockId) (action : CompileM α) : CompileM α :=
  action |> within
    (fun st => { st with breakTargets := breakTarget :: st.breakTargets,
                         continueTargets := continueTarget :: st.continueTargets })
    fun st st' => { st' with breakTargets := st.breakTargets, continueTargets := st.continueTargets }

def withBreakTarget (breakTarget : BlockId) (action : CompileM α) : CompileM α :=
  action |> within (fun st => { st with breakTargets := breakTarget :: st.breakTargets })
    fun st st' => { st' with breakTargets := st.breakTargets }

def currentBreakTarget : CompileM (Option BlockId) := do
  return (← get).breakTargets.head?

def currentContinueTarget : CompileM (Option BlockId) := do
  return (← get).continueTargets.head?

-- The block of a label is allocated when the label is first mentioned.
def labelBlock (name : String) : CompileM BlockId := do
  let st ← get
  match symbolMapLookup name st.labels with
  | some bid => return bid
  | none     =>
    let bid : BlockId := ⟨st.nextBlock⟩
    set { st with nextBlock := st.nextBlock + 1, labels := symbolMapInsert name bid st.labels }
    return bid

-- An error is reported with its context.
def withErrorContext (context : String) (action : CompileM α) : CompileM α :=
  fun st => ExceptT.adapt (fun msg => context ++ ": " ++ msg) (action st)

end Hcc
