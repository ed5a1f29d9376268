import Hcc.Lower.Expression

open Stateful

namespace Hcc

-- What an identifier denotes.
inductive Entity
  | localVar (temp : Temp) (type : CType)
  | function
  | object   (type : CType)

-- Local variables hide functions and objects.
def entity? (scope : Scope) (st : ValueState) (name : String) : Option Entity :=
  match scopeMapLookup name scope with
  | some (temp, type) => some (.localVar temp type)
  | none              =>
    if symbolMapMember name st.functions then some .function
    else (symbolMapLookup name st.globals).map .object

-- The type of a call of the entity. Functions without a prototype return `long`.
def Entity.resultType (st : ValueState) (name : String) : Entity → Option CType
  | .localVar _ type => functionResultType type
  | .function        => some (((symbolMapLookup name st.functionTypes).bind functionResultType).getD .long)
  | .object type     => functionResultType type

-- The instructions evaluate the arguments, and they call the entity.
inductive CallsEntity (scope : Scope) (name : String) (args : List Expr) (result : Option Temp) :
    Entity → List Instr → Prop
  | localVar (n m : Nat) :
    Run ((lowering n).coerceScalar type (.temp temp) scope) st₁ (calleeInstrs, calleeOp) st₂ →
    Run ((lowering m).lowerCallArgs args scope) st₂ (argInstrs, argOps) st₃ →
    CallsEntity scope name args result (.localVar temp type)
      (calleeInstrs ++ argInstrs ++ [.callIndirect result calleeOp argOps])
  | function (m : Nat) :
    Run ((lowering m).lowerCallArgs args scope) st₁ (argInstrs, argOps) st₂ →
    CallsEntity scope name args result .function (argInstrs ++ [.call result name argOps])
  | object (n m : Nat) :
    Run ((lowering n).lowerTypedGlobalVarExpr name type scope) st₁ (calleeInstrs, calleeOp) st₂ →
    Run ((lowering m).lowerCallArgs args scope) st₂ (argInstrs, argOps) st₃ →
    CallsEntity scope name args result (.object type)
      (calleeInstrs ++ argInstrs ++ [.callIndirect result calleeOp argOps])

def CallsDenoted (scope : Scope) (st : ValueState) (name : String) (args : List Expr)
    (result : Option Temp) (instrs : List Instr) : Prop :=
  ∃ entity, entity? scope st name = some entity ∧ CallsEntity scope name args result entity instrs

-- No variable hides a function, and no constant hides a variable or an object.
def CalleeResolves (scope : Scope) (st : ValueState) (name : String) : Prop :=
  if symbolMapMember name st.functions then scopeMapLookup name scope = none
  else isFunctionNameMacro name = false ∧ builtinConstant name = none ∧
    symbolMapLookup name st.constants = none

-- Calls in statement position that are dropped.
def isDroppedCall (name : String) : Bool :=
  name = "asm" || isIgnoredSideEffectCall name

-- The types of functions and of objects are found under different names.
def TypeResolves (scope : Scope) (st : ValueState) (name : String) : Prop :=
  scopeMapLookup name scope = none →
    let functionResult := (symbolMapLookup name st.functionTypes).bind functionResultType
    let globalResult := (symbolMapLookup name st.globals).bind functionResultType
    if symbolMapMember name st.functions then functionResult.isSome ∨ globalResult.getD .long = .long
    else functionResult.isNone ∨ functionResult = globalResult

end Hcc
