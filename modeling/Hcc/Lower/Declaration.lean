import Hcc.Lower.Expression
import Hcc.Lower.Statement

namespace Hcc

open Stateful

-- Names and addresses are initialized at run time.
mutual

def staticInitializerExpr : Expr → Bool
  | .initList exprs => staticInitializerExprs exprs
  | .string _       => true
  | .int _          => true
  | .float _        => true
  | .char _         => true
  | .sizeofType _   => true
  | .sizeofExpr _   => true
  | .cast _ value   => staticInitializerExpr value
  | .unary op value => op ∈ ["-", "+", "~", "!"] && staticInitializerExpr value
  | _               => false

def staticInitializerExprs : List Expr → Bool
  | []            => true
  | expr :: exprs => staticInitializerExpr expr && staticInitializerExprs exprs

end

namespace Lowering

variable (l : Lowering) (fuel : Nat)

def localDataItem (ty : CType) (initExpr : Option Expr) : ValueM (Option String) := do
  let dataLabel ← freshDataLabel
  let values ← l.globalData fuel ty initExpr
  addDataItem ⟨dataLabel, values⟩
  return some dataLabel

section Writes

def lowerAggregateElementScalarWrite (addr : Operand) (fieldTy : CType) : Expr → ValueM (List Instr)
  | .initList [expr] => lowerAggregateElementScalarWrite addr fieldTy expr
  | expr             => do
    let (exprInstrs, op) ← l.lowerExpr expr
    let (coerceInstrs, coerceOp) ← l.coerceScalar fieldTy op
    let store ← l.storeInstr fieldTy addr coerceOp
    return exprInstrs ++ coerceInstrs ++ [store]

variable (lowerAggregateInitList : Operand → CType → List Expr → ValueM (List Instr))

def lowerAggregateElementAggregateWrite (addr : Operand) (fieldTy : CType) (expr : Expr) :
    ValueM (List Instr) :=
  match expr with
  | .initList exprs => lowerAggregateInitList addr fieldTy exprs
  | .string text    => do
    match ← l.localDataItem fuel fieldTy (some (.string text)) with
    | some name => l.copyObject addr (.global name) fieldTy
    | none      => return []
  | expr            => do
    let (exprInstrs, op) ← l.lowerExpr expr
    let copyInstrs ← l.copyObject addr op fieldTy
    return exprInstrs ++ copyInstrs

def lowerAggregateElementWrite (dst : Operand) (offset : Int) (fieldTy : CType) (expr : Expr) :
    ValueM (List Instr) := do
  let (addrInstrs, addr) ← offsetAddress dst offset
  let aggregateStorage ← isAggregateTypeM fieldTy
  let valueInstrs ← (if aggregateStorage then
      l.lowerAggregateElementAggregateWrite fuel lowerAggregateInitList addr fieldTy expr
    else l.lowerAggregateElementScalarWrite addr fieldTy expr : ValueM (List Instr))
  return addrInstrs ++ valueInstrs

def lowerArrayInitWrites (dst : Operand) (inner : CType) (index : Int) :
    List Expr → ValueM (List Instr)
  | []           => return []
  | expr :: rest => do
    let elemSize ← l.typeSize inner
    let current ← l.lowerAggregateElementWrite fuel lowerAggregateInitList dst (index * elemSize) inner expr
    let tailInstrs ← lowerArrayInitWrites dst inner (index + 1) rest
    return current ++ tailInstrs

def lowerStructInitWrites (dst : Operand) (offset : Int) : List Field → List Expr → ValueM (List Instr)
  | .mk fieldTy _ :: fieldRest, expr :: exprRest => do
    let align ← l.typeAlign fieldTy
    let fieldSize ← l.typeSize fieldTy
    let aligned := alignUp offset align
    let current ← l.lowerAggregateElementWrite fuel lowerAggregateInitList dst aligned fieldTy expr
    let tailInstrs ← lowerStructInitWrites dst (aligned + fieldSize) fieldRest exprRest
    return current ++ tailInstrs
  | _,                          _                => return []

def lowerUnionInitWrites (dst : Operand) (fields : List Field) (exprs : List Expr) :
    ValueM (List Instr) :=
  match fields, exprs with
  | .mk fieldTy _ :: _, expr :: _ =>
    l.lowerAggregateElementWrite fuel lowerAggregateInitList dst 0 fieldTy expr
  | _,                  _         => return []

def lowerAggregateInitListStep (dst : Operand) (ty : CType) (exprs : List Expr) :
    ValueM (List Instr) :=
  match ty with
  | .array inner _ => l.lowerArrayInitWrites fuel lowerAggregateInitList dst inner 0 exprs
  | ty             => do
    match ← aggregateFields ty with
    | some (false, fields) => l.lowerStructInitWrites fuel lowerAggregateInitList dst 0 fields exprs
    | some (true, fields)  => l.lowerUnionInitWrites fuel lowerAggregateInitList dst fields exprs
    | none                 => return []

end Writes

def lowerAggregateInitList : (depth : Nat) → Operand → CType → List Expr → ValueM (List Instr)
  | 0         => fun _ _ _ _ => outOfFuel
  | depth + 1 => l.lowerAggregateInitListStep fuel (lowerAggregateInitList depth)

def lowerAggregateInitWrites (dst : Operand) (ty : CType) (initExpr : Option Expr) :
    ValueM (List Instr) :=
  match initExpr with
  | some (.initList exprs) => l.lowerAggregateInitList fuel fuel dst ty exprs
  | _                      => return []

section Templates

def localArrayTemplateData (ty : CType) (initExpr : Option Expr) : ValueM (Option String) :=
  match initExpr with
  | none      => return none
  | some expr =>
    if staticInitializerExpr expr then
      match expr with
      | .initList _ => l.localDataItem fuel ty initExpr
      | .string _   => l.localDataItem fuel ty initExpr
      | _           => return none
    else return none

def localNonArrayTemplateData (ty : CType) (initExpr : Option Expr) : ValueM (Option String) :=
  match initExpr with
  | some (.initList exprs) => do
    let aggregateStorage ← isAggregateTypeM ty
    if aggregateStorage && staticInitializerExpr (.initList exprs) then l.localDataItem fuel ty initExpr
    else return none
  | _                      => return none

def localAggregateTemplateData (ty : CType) (initExpr : Option Expr) : ValueM (Option String) :=
  match ty with
  | .array .. => l.localArrayTemplateData fuel ty initExpr
  | ty        => l.localNonArrayTemplateData fuel ty initExpr

end Templates

def lowerScalarDecl (ty : CType) (temp : Temp) (initExpr : Option Expr) : ValueM (List Instr) :=
  match initExpr with
  | none      => return [.const temp 0]
  | some expr => do
    let (exprInstrs, op) ← l.lowerExpr expr
    let (coerceInstrs, coerceOp) ← l.coerceScalar ty op
    return exprInstrs ++ coerceInstrs ++ [.copy temp coerceOp]

def lowerAggregateDeclRuntime (ty : CType) (temp : Temp) (initExpr : Option Expr) :
    ValueM (List Instr) :=
  match initExpr with
  | some (.initList exprs) => do
    let zeroInstrs ← l.zeroObject (.temp temp) ty
    let writeInstrs ← l.lowerAggregateInitWrites fuel (.temp temp) ty (some (.initList exprs))
    return zeroInstrs ++ writeInstrs
  | some expr              => do
    let (exprInstrs, op) ← l.lowerExpr expr
    let copyInstrs ← l.copyObject (.temp temp) op ty
    return exprInstrs ++ copyInstrs
  | none                   => return []

def lowerAggregateDeclInit (ty : CType) (temp : Temp) (initExpr : Option Expr) :
    ValueM (List Instr) := do
  match ← l.localAggregateTemplateData fuel ty initExpr with
  | some label => l.copyObject (.temp temp) (.global label) ty
  | none       => l.lowerAggregateDeclRuntime fuel ty temp initExpr

def lowerAggregateDecl (ty : CType) (temp : Temp) (initExpr : Option Expr) : ValueM (List Instr) := do
  let size ← l.typeSize ty
  let initInstrs ← l.lowerAggregateDeclInit fuel ty temp initExpr
  return .alloca temp size :: initInstrs

-- The variable is bound before its initializer is lowered.
def lowerDecl (ty : CType) (name : String) (initExpr : Option Expr) : ExprM (List Instr) := do
  let aggregateStorage ← onValues (isAggregateTypeM ty)
  let temp ← onValues freshTemp
  bindVar name temp ty
  onValues (if aggregateStorage then l.lowerAggregateDecl fuel ty temp initExpr
    else l.lowerScalarDecl ty temp initExpr)

end Lowering

def exprLowering (fuel : Nat) : ExprLowering where
  lowerExpr             := fun expr => onValues ((lowering fuel).lowerExpr expr)
  lowerSideEffect       := fun expr => onValues ((lowering fuel).lowerSideEffect expr)
  lowerDecl             := (lowering fuel).lowerDecl fuel
  lowerBranchComparison := fun op a b => onValues ((lowering fuel).lowerBranchComparison op a b)
  coerceScalar          := fun ty op => onValues ((lowering fuel).coerceScalar ty op)

end Hcc
