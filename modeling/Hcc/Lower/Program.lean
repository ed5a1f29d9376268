import Hcc.Ir.Text
import Hcc.Lower.Declaration

-- The lowering of a translation unit to items of the textual IR.
namespace Hcc

open Stateful

section Symbols

def isPrefixedBy (pre name : String) : Bool :=
  pre.toList.isPrefixOf name.toList

def rejectReservedSymbol (kind name : String) : ValueM Unit :=
  if isPrefixedBy "FUNCTION_" name || isPrefixedBy "HCC_DATA_" name then
    throw (kind ++ " name " ++ name.quote ++ " uses a reserved HCC label prefix")
  else return ()

def bindGlobal (name : String) (ty : CType) : ValueM Unit := do
  rejectReservedSymbol "global" name
  modify fun st => { st with globals := symbolMapInsert name ty st.globals }

def bindConstant (name : String) (value : Int) : ValueM Unit :=
  modify fun st => { st with constants := symbolMapInsert name value st.constants }

def bindFunction (name : String) : ValueM Unit := do
  rejectReservedSymbol "function" name
  modify fun st => { st with functions := symbolMapInsert name () st.functions }

def bindFunctionType (name : String) (retTy : CType) (params : List Param) : ValueM Unit := do
  rejectReservedSymbol "function" name
  modify fun st => { st with
    functions     := symbolMapInsert name () st.functions
    functionTypes := symbolMapInsert name (.func retTy (params.map (·.type))) st.functionTypes }

end Symbols

section Registers

mutual

def registerTypeAggregates : CType → ValueM Unit
  | .ptr inner               => registerTypeAggregates inner
  | .array inner _           => registerTypeAggregates inner
  | .func ret params         => do
    registerTypeAggregates ret
    registerTypesAggregates params
  | .structNamed name fields => do
    registerFieldAggregates fields
    bindStruct name false fields
  | .unionNamed name fields  => do
    registerFieldAggregates fields
    bindStruct name true fields
  | .structDef fields        => registerFieldAggregates fields
  | .unionDef fields         => registerFieldAggregates fields
  | _                        => return ()

def registerTypesAggregates : List CType → ValueM Unit
  | []         => return ()
  | ty :: rest => do
    registerTypeAggregates ty
    registerTypesAggregates rest

def registerFieldAggregates : List Field → ValueM Unit
  | []               => return ()
  | .mk ty _ :: rest => do
    registerTypeAggregates ty
    registerFieldAggregates rest

end

def registerExternGlobals : List (CType × String) → ValueM Unit
  | []                 => return ()
  | (ty, name) :: rest => do
    registerTypeAggregates ty
    bindGlobal name ty
    registerExternGlobals rest

def registerConstants : List (String × Int) → ValueM Unit
  | []                    => return ()
  | (name, value) :: rest => do
    bindConstant name value
    registerConstants rest

def registerFunctionDecl (ty : CType) (name : String) (params : List Param) : ValueM Unit := do
  registerTypeAggregates ty
  registerTypesAggregates (params.map (·.type))
  bindGlobal name ty
  bindFunctionType name ty params

def tmFields : List Field :=
  ["tm_sec", "tm_min", "tm_hour", "tm_mday", "tm_mon", "tm_year", "tm_wday", "tm_yday",
    "tm_isdst"].map (.mk .int)

def timevalFields : List Field :=
  [.mk .long "tv_sec", .mk .long "tv_usec"]

def fileStructFields : List Field :=
  [.mk .int "fd", .mk .int "bufmode", .mk .int "bufpos", .mk .int "file_pos", .mk .int "buflen",
    .mk (.ptr .char) "buffer", .mk (.ptr (.struct "__IO_FILE")) "next",
    .mk (.ptr (.struct "__IO_FILE")) "prev"]

def registerBuiltinStructs : ValueM Unit := do
  bindStruct "tm" false tmFields
  bindStruct "timeval" false timevalFields
  bindStruct "__IO_FILE" false fileStructFields
  bindStruct "FILE" false fileStructFields

end Registers

section ImplicitCalls

-- A called name that is not declared is a function.
def registerImplicitCallName (locals : List String) (name : String) : ValueM Unit :=
  if name ∈ locals || isIgnoredSideEffectCall name then return ()
  else do
    match ← lookupGlobalType name with
    | some _ => return ()
    | none   => bindFunction name

mutual

def registerImplicitCallsExpr (locals : List String) : Expr → ValueM Unit
  | .call (.var name) args    =>
    if name = "asm" then return ()
    else do
      registerImplicitCallName locals name
      registerImplicitCallsExprs locals args
  | .call callee args         => do
    registerImplicitCallsExpr locals callee
    registerImplicitCallsExprs locals args
  | .index base ix            => do
    registerImplicitCallsExpr locals base
    registerImplicitCallsExpr locals ix
  | .member base _            => registerImplicitCallsExpr locals base
  | .ptrMember base _         => registerImplicitCallsExpr locals base
  | .unary _ value            => registerImplicitCallsExpr locals value
  | .sizeofExpr value         => registerImplicitCallsExpr locals value
  | .cast _ value             => registerImplicitCallsExpr locals value
  | .postIncDec _ value       => registerImplicitCallsExpr locals value
  | .binary _ left right      => do
    registerImplicitCallsExpr locals left
    registerImplicitCallsExpr locals right
  | .cond cond yes no         => do
    registerImplicitCallsExpr locals cond
    registerImplicitCallsExpr locals yes
    registerImplicitCallsExpr locals no
  | .assign lhs rhs           => do
    registerImplicitCallsExpr locals lhs
    registerImplicitCallsExpr locals rhs
  | .compoundAssign _ lhs rhs => do
    registerImplicitCallsExpr locals lhs
    registerImplicitCallsExpr locals rhs
  | _                         => return ()

def registerImplicitCallsExprs (locals : List String) : List Expr → ValueM Unit
  | []            => return ()
  | expr :: exprs => do
    registerImplicitCallsExpr locals expr
    registerImplicitCallsExprs locals exprs

end

def maybeRegisterImplicitCallsExpr (locals : List String) : Option Expr → ValueM Unit
  | none      => return ()
  | some expr => registerImplicitCallsExpr locals expr

def registerImplicitCallsDecls (locals : List String) : List Decl → ValueM (List String)
  | []           => return locals
  | decl :: rest => do
    maybeRegisterImplicitCallsExpr locals decl.init
    registerImplicitCallsDecls (decl.name :: locals) rest

def registerForInitImplicitCalls (locals : List String) : ForInit → ValueM (List String)
  | .noInit      => return locals
  | .expr expr   => do
    registerImplicitCallsExpr locals expr
    return locals
  | .decls decls => registerImplicitCallsDecls locals decls

mutual

def registerImplicitCallsStmt (locals : List String) : Stmt → ValueM (List String)
  | .sDecl decl               => do
    maybeRegisterImplicitCallsExpr locals decl.init
    return decl.name :: locals
  | .sDecls decls             => registerImplicitCallsDecls locals decls
  | .sReturn expr             => do
    maybeRegisterImplicitCallsExpr locals expr
    return locals
  | .sExpr expr               => do
    registerImplicitCallsExpr locals expr
    return locals
  | .sIf cond yes no          => do
    registerImplicitCallsExpr locals cond
    registerImplicitCalls locals yes
    registerImplicitCalls locals no
    return locals
  | .sWhile cond body         => do
    registerImplicitCallsExpr locals cond
    registerImplicitCalls locals body
    return locals
  | .sDoWhile body cond       => do
    registerImplicitCalls locals body
    registerImplicitCallsExpr locals cond
    return locals
  | .sFor init cond step body => do
    let locals' ← registerForInitImplicitCalls locals init
    maybeRegisterImplicitCallsExpr locals cond
    maybeRegisterImplicitCallsExpr locals step
    registerImplicitCalls locals' body
    return locals
  | .sSwitch value body       => do
    registerImplicitCallsExpr locals value
    registerImplicitCallsSwitch locals body
    return locals
  | .sCase expr               => do
    registerImplicitCallsExpr locals expr
    return locals
  | .sBlock body              => do
    registerImplicitCalls locals body
    return locals
  | _                         => return locals

def registerImplicitCalls (locals : List String) : List Stmt → ValueM Unit
  | []           => return ()
  | stmt :: rest => do
    let locals ← registerImplicitCallsStmt locals stmt
    registerImplicitCalls locals rest

-- The body of a switch is looked through as in `switchBodyStatements`.
def registerImplicitCallsSwitch (locals : List String) : List Stmt → ValueM Unit
  | [.sBlock stmts] => registerImplicitCalls locals stmts
  | []              => return ()
  | stmt :: rest    => do
    let locals ← registerImplicitCallsStmt locals stmt
    registerImplicitCalls locals rest

end

end ImplicitCalls

section TopDecls

def onState (action : ValueM α) : CompileM α :=
  onExprs (onValues action)

def pendingDataItemsIr : CompileM (List TopItemIr) := do
  let items := (← get).dataItems
  modify fun st => { st with dataItems := [] }
  return items.reverse.map .data

variable (fuel : Nat)

def registerGlobalIr (decl : Decl) : CompileM (List TopItemIr) := do
  onState (registerTypeAggregates decl.type)
  onState (bindGlobal decl.name decl.type)
  let values ← onState ((typing fuel).globalData fuel decl.type decl.init)
  let pending ← pendingDataItemsIr
  return .data ⟨decl.name, values⟩ :: pending

def registerGlobalsIr : List Decl → CompileM (List TopItemIr)
  | []           => return []
  | decl :: rest => do
    let items ← registerGlobalIr fuel decl
    let restItems ← registerGlobalsIr rest
    return items ++ restItems

def registerTopDeclShallowState : TopDecl → ValueM Unit
  | .function ty name params _      => registerFunctionDecl ty name params
  | .prototype ty name params       => registerFunctionDecl ty name params
  | .structDecl isUnion name fields => do
    registerFieldAggregates fields
    bindStruct name isUnion fields
  | .externGlobals decls            => registerExternGlobals decls
  | .enumConstants constants        => registerConstants constants
  | .typeDecl types                 => registerTypesAggregates types
  | _                               => return ()

def registerTopDeclIr : TopDecl → CompileM (List TopItemIr)
  | .global decl   => registerGlobalIr fuel decl
  | .globals decls => registerGlobalsIr fuel decls
  | decl           => do
    onState (registerTopDeclShallowState decl)
    return []

def registerTopDeclsIr : List TopDecl → CompileM (List TopItemIr)
  | []           => return []
  | decl :: rest => do
    let items ← registerTopDeclIr fuel decl
    let restItems ← registerTopDeclsIr rest
    return items ++ restItems

def lowerFunctionDecl (name : String) (params : List Param) (body : List Stmt) :
    CompileM (List TopItemIr) := do
  onState (registerImplicitCalls (params.map (·.name)) body)
  let fn ← lowerFunction (exprLowering fuel) fuel name params body
  let pending ← pendingDataItemsIr
  return .function fn :: pending

-- The items are written when the whole unit has been lowered.
def lowerAndEmitTopDeclsIr : List TopDecl → CompileM (List TopItemIr)
  | []                                 => return []
  | .function _ name params body :: rest => do
    let items ← lowerFunctionDecl fuel name params body
    let restItems ← lowerAndEmitTopDeclsIr rest
    return items ++ restItems
  | _ :: rest                          => lowerAndEmitTopDeclsIr rest

def lowerProgram (decls : List TopDecl) : CompileM (List TopItemIr) := do
  onState registerBuiltinStructs
  let registeredItems ← registerTopDeclsIr fuel decls
  let items ← lowerAndEmitTopDeclsIr fuel decls
  return registeredItems ++ items

end TopDecls

section Output

def takeFileName (path : List Char) : List Char :=
  (path.reverse.takeWhile (· ≠ '/')).reverse

def sanitizeLabelChar (c : Char) : Char :=
  if c.isAlphanum then c else '_'

def dataLabelPrefix (path : String) : String :=
  match (takeFileName path.toList).map sanitizeLabelChar with
  | []   => "HCC_DATA_unit"
  | text => "HCC_DATA_" ++ String.ofList text

def initialCompileStateForTarget (pre : String) (bits : Nat) : CompileState where
  dataPrefix := pre
  targetBits := bits

-- The lines of the textual IR.
def emitM1Ir (fuel : Nat) (pre : String) (bits : Nat) (decls : List TopDecl) :
    Fueled String (List String) := do
  let (items, _) ← lowerProgram fuel decls (initialCompileStateForTarget pre bits)
  return "HCCIR 1" :: emitTopItemsIr items

end Output
end Hcc
