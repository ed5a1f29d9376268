import Hcc.Lower.Program
import Hcc.Runtime.Basic

-- The emission of the textual IR while the declarations are lowered.
namespace Hcc

def runCompileM (m : CompileM α) (st : CompileState) : Io (Except String (α × CompileState)) :=
  fun rt => (m st).run.map fun result => (.ok result, rt)

section

variable (fuel : Nat) (write : String → Io Unit)

def writeTopItemsIr (items : List TopItemIr) : Io Unit :=
  (emitTopItemsIr items).forM write

def streamTopDeclsIr (st : CompileState) : List TopDecl → Io (Except String Unit)
  | []                                 => return .ok ()
  | .function _ name params body :: rest => do
    match ← runCompileM (lowerFunctionDecl fuel name params body) st with
    | .error err       => return .error err
    | .ok (items, st') => do
      writeTopItemsIr write items
      streamTopDeclsIr st' rest
  | _ :: rest                          => streamTopDeclsIr st rest

def emitM1IrStreamingWithDataPrefixTarget (pre : String) (bits : Nat) (decls : List TopDecl) :
    Io (Except String Unit) := do
  match ← runCompileM (onState registerBuiltinStructs) (initialCompileStateForTarget pre bits) with
  | .error err    => return .error err
  | .ok (_, st₀)  => do
    match ← runCompileM (registerTopDeclsIr fuel decls) st₀ with
    | .error err                 => return .error err
    | .ok (registeredItems, st)  => do
      write "HCCIR 1"
      writeTopItemsIr write registeredItems
      streamTopDeclsIr fuel write st decls

end

-- The output of the compiler, for a file that has been opened.
def writeM1Ir (fuel : Nat) (input : String) (bits : Nat) (decls : List TopDecl) : Io (Except String Unit) :=
  hccWithTransactionalLineWriter fun write =>
    emitM1IrStreamingWithDataPrefixTarget fuel write (dataLabelPrefix input) bits decls

end Hcc
