import Hcc.Lower.Callee
import Hcc.Lower.Theorems.Steady.Types

open Stateful

namespace Hcc

-- An interpretation of instructions. A load reads its address.
structure IrSemantics (σ : Type) where
  step         : Instr → σ → σ
  value        : σ → Operand → Int
  reads        : Instr → σ → List Int
  reads_load32 : value s addr ∈ reads (.load32 t addr) s
  reads_load64 : value s addr ∈ reads (.load64 t addr) s

namespace IrSemantics

variable {σ : Type} (sem : IrSemantics σ)

def exec (instrs : List Instr) (s : σ) : σ :=
  instrs.foldl (fun s instr => sem.step instr s) s

-- The addresses that are read by a list of instructions.
def readsOf : List Instr → σ → List Int
  | [],              _ => []
  | instr :: instrs, s => sem.reads instr s ++ readsOf instrs (sem.step instr s)

-- The operand has the value `a` and the instructions do not read from `a`.
def Yields (s : σ) (a : Int) (instrs : List Instr) (op : Operand) : Prop :=
  sem.value (sem.exec instrs s) op = a ∧ a ∉ sem.readsOf instrs s

end IrSemantics

-- A function, or an object that holds a pointer to a function.
inductive CalleeBase
  | function (name : String)
  | pointer  (place : Expr)

def CalleeBase.expr : CalleeBase → Expr
  | function name => .var name
  | pointer place => place

def isPlace : Expr → Bool
  | .var _       => true
  | .index ..    => true
  | .member ..   => true
  | .ptrMember .. => true
  | _            => false

-- The name denotes a function, and the object has the type of a pointer to a function.
def CalleeBase.Valid (scope : Scope) (st : ValueState) : CalleeBase → Prop
  | function name => entity? scope st name = some .function ∧ isFunctionNameMacro name = false ∧
    builtinConstant name = none ∧ symbolMapLookup name st.constants = none ∧
    symbolMapLookup name st.globals = none ∧
    ∀ {type}, symbolMapLookup name st.functionTypes = some type → ∃ ret params, type = .func ret params
  | pointer place => isPlace place ∧ ∀ {n st₁ type st₂}, st.Extends st₁ →
    Run ((typing n).exprType place scope) st₁ type st₂ → ∃ ret params, type = some (.ptr (.func ret params))

-- The evaluation of the function or of the object.
def CalleeBase.Reads (scope : Scope) (st : ValueState) (instrs : List Instr) (op : Operand) :
    CalleeBase → Prop
  | function name => instrs = [] ∧ op = .function name
  | pointer place => ∃ n st₁ st₂, st.Extends st₁ ∧ Run ((lowering n).lowerExpr place scope) st₁ (instrs, op) st₂

-- The evaluation yields the address `a`.
def CalleeBase.Holds {σ : Type} (sem : IrSemantics σ) (v : σ) (a : Int) (scope : Scope) (st : ValueState)
    (b : CalleeBase) : Prop :=
  ∀ {instrs op}, b.Reads scope st instrs op → sem.Yields v a instrs op

-- The instructions call the function at `a`, with the given arguments.
inductive ReachesCallee {σ : Type} (sem : IrSemantics σ) (v : σ) (a : Int) (scope : Scope) (st : ValueState)
    (callee : Expr) (args : List Expr) (result : Option Temp) : List Instr → Prop
  | direct (m : Nat) :
    Run ((lowering m).lowerCallArgs args scope) st₁ (argInstrs, argOps) st₂ →
    sem.value v (.function name) = a →
    ReachesCallee sem v a scope st callee args result (argInstrs ++ [.call result name argOps])
  | indirect (n m : Nat) :
    st.Extends st₁ →
    Run ((lowering n).lowerExpr callee scope) st₁ (calleeInstrs, calleeOp) st₂ →
    Run ((lowering m).lowerCallArgs args scope) st₂ (argInstrs, argOps) st₃ →
    sem.Yields v a calleeInstrs calleeOp →
    ReachesCallee sem v a scope st callee args result
      (calleeInstrs ++ argInstrs ++ [.callIndirect result calleeOp argOps])

-- The prefix operators of a callee.
inductive Spelling
  | base
  | deref   (s : Spelling)
  | address (s : Spelling)
deriving DecidableEq

namespace Spelling

def expr (b : CalleeBase) : Spelling → Expr
  | base      => b.expr
  | deref s   => .unary "*" (s.expr b)
  | address s => .unary "&" (s.expr b)

inductive Kind
  | function
  | pointer
deriving DecidableEq

-- A function designator is converted to a pointer if it is dereferenced. The address of a pointer is not
-- a pointer to a function.
def kind? : CalleeBase → Spelling → Option Kind
  | .function _, base => some .function
  | .pointer _, base  => some .pointer
  | b, deref s        => (s.kind? b).map fun _ => .function
  | b, address s      =>
    match s.kind? b with
    | some .function => some .pointer
    | _              => none

-- After `*&` and `&*` cancel, there is a remaining dereference.
def loads : Spelling → Bool
  | base              => false
  | deref (address s) => s.loads
  | deref _           => true
  | address (deref s) => s.loads
  | address _         => false

end Spelling
end Hcc
