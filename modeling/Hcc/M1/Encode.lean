import Hcc.Ir.Text
import Hcc.Lexer.Token
import Hcc.M1.Reader

-- The representation of the IR in the backend.
namespace Hcc.M1

open Hcc (BinOp Temp BlockId)

section

-- The conversions of numbers to the types of the fields that hold them.
variable (int long : Int → Int)

def encodeOperand : Hcc.Operand → Operand
  | .temp t         => { kind := OP_TEMP, value := long t.index }
  | .imm value      => { kind := OP_IMM, value := long value }
  | .immBytes bytes => { kind := OP_BYTES, count := bytes.length, bytes := bytes.map int }
  | .global name    => { kind := OP_GLOBAL, name := name }
  | .function name  => { kind := OP_FUNC, name := name }

def encodeResult : Option Temp → Int
  | none   => -1
  | some t => int t.index

def encodeTempValue (kind : Int) (t : Temp) (value : Int) : Fields where
  kind  := kind
  temp  := int t.index
  value := long value

def encodeTempOp (kind : Int) (t : Temp) (op : Hcc.Operand) : Fields where
  kind := kind
  temp := int t.index
  a    := encodeOperand int long op

def encodeOpOp (kind : Int) (a b : Hcc.Operand) : Fields where
  kind := kind
  a    := encodeOperand int long a
  b    := encodeOperand int long b

def encodeExt (kind : Int) (t : Temp) (size : Int) (op : Hcc.Operand) : Fields where
  kind  := kind
  temp  := int t.index
  value := long size
  a     := encodeOperand int long op

def encodeFields : Hcc.Instr → Fields
  | .param t index          => encodeTempValue int long 1 t index
  | .alloca t size          => encodeTempValue int long 2 t size
  | .const t value          => encodeTempValue int long 3 t value
  | .copy t op              => encodeTempOp int long 5 t op
  | .addrOf t source        => { kind := 6, temp := int t.index, temp2 := int source.index }
  | .load64 t op            => encodeTempOp int long 7 t op
  | .load32 t op            => encodeTempOp int long 8 t op
  | .loadS32 t op           => encodeTempOp int long 9 t op
  | .load16 t op            => encodeTempOp int long 10 t op
  | .loadS16 t op           => encodeTempOp int long 11 t op
  | .load8 t op             => encodeTempOp int long 12 t op
  | .loadS8 t op            => encodeTempOp int long 13 t op
  | .store64 addr value     => encodeOpOp int long 14 addr value
  | .store32 addr value     => encodeOpOp int long 15 addr value
  | .store16 addr value     => encodeOpOp int long 16 addr value
  | .store8 addr value      => encodeOpOp int long 17 addr value
  | .bin t op left right    =>
    { kind := 18, temp := int t.index, binop := binOpCode op, a := encodeOperand int long left,
      b := encodeOperand int long right }
  | .call result name args  =>
    { kind := 19, result := encodeResult int result, name := name, argc := args.length,
      args := args.map (encodeOperand int long) }
  | .callIndirect result callee args =>
    { kind := 20, result := encodeResult int result, callee := encodeOperand int long callee,
      argc := args.length, args := args.map (encodeOperand int long) }
  | .cond t _ _ _ _ _ _     => { kind := IK_COND, temp := int t.index }
  | .sext t size op         => encodeExt int long 22 t size op
  | .zext t size op         => encodeExt int long 23 t size op
  | .trunc t size op        => encodeExt int long 24 t size op

mutual

def encodeInstr : Hcc.Instr → Instr
  | .cond t condInstrs condOp trueInstrs trueOp falseInstrs falseOp =>
    .mk { kind := IK_COND, temp := int t.index }
      (encodeInstrs condInstrs) (encodeInstrs trueInstrs) (encodeInstrs falseInstrs)
      (encodeOperand int long condOp) (encodeOperand int long trueOp) (encodeOperand int long falseOp)
  | instr => .mk (encodeFields int long instr) [] [] [] {} {} {}

def encodeInstrs : List Hcc.Instr → List Instr
  | []              => []
  | instr :: instrs => encodeInstr instr :: encodeInstrs instrs

end

-- The fields of a block that hold its terminator.
def encodeTerm : Terminator → Block
  | .ret none                 => { termKind := TK_RET }
  | .ret (some op)            => { termKind := TK_RET, termOp := encodeOperand int long op }
  | .jump target              => { termKind := TK_JUMP, yes := int target.index }
  | .branch op yes no         =>
    { termKind := TK_BRANCH, termOp := encodeOperand int long op, yes := int yes.index,
      no := int no.index }
  | .branchCmp op left right yes no =>
    { termKind := TK_BRANCH_CMP, termBinop := binOpCode op, termOp := encodeOperand int long left,
      termB := encodeOperand int long right, yes := int yes.index, no := int no.index }

def encodeBlock (block : BasicBlock) : Block :=
  { encodeTerm int long block.term with
    id     := int block.id.index
    instrs := encodeInstrs int long block.instrs }

def encodeFunction (fn : FunctionIr) : Function where
  name   := fn.name
  blocks := fn.blocks.map (encodeBlock int long)

def encodeDataValue : Hcc.DataValue → DataValue
  | .byte value    => { kind := 1, byte := int value }
  | .address label => { kind := 2, label := label }

def encodeDataItem (item : Hcc.DataItem) : DataItem where
  label  := item.label
  values := item.values.map (encodeDataValue int)

def encodeItem : TopItemIr → Item
  | .data item   => .data (encodeDataItem int item)
  | .function fn => .function (encodeFunction int long fn)

end

-- The representation of a module.
def encode (items : List TopItemIr) : List Item :=
  items.map (encodeItem id id)

section Names

-- A name that does not contain whitespace and that is a string of the backend.
def Solid (name : String) : Prop :=
  ∀ c ∈ name.toList, isSpaceChar c = false ∧ c ≠ '\x00'

instance : Decidable (Solid name) :=
  List.decidableBAll _ name.toList

def operandNames : Hcc.Operand → List String
  | .global name | .function name => [name]
  | _                             => []

mutual

def instrNames : Hcc.Instr → List String
  | .param .. | .alloca .. | .const .. | .addrOf ..               => []
  | .copy _ op | .load64 _ op | .load32 _ op | .loadS32 _ op
  | .load16 _ op | .loadS16 _ op | .load8 _ op | .loadS8 _ op
  | .sext _ _ op | .zext _ _ op | .trunc _ _ op                   => operandNames op
  | .store64 a b | .store32 a b | .store16 a b | .store8 a b
  | .bin _ _ a b                                                  => operandNames a ++ operandNames b
  | .call _ name args            => name :: args.flatMap operandNames
  | .callIndirect _ callee args  => operandNames callee ++ args.flatMap operandNames
  | .cond _ condInstrs condOp trueInstrs trueOp falseInstrs falseOp =>
    instrsNames condInstrs ++ operandNames condOp ++ instrsNames trueInstrs ++ operandNames trueOp ++
      instrsNames falseInstrs ++ operandNames falseOp

def instrsNames : List Hcc.Instr → List String
  | []              => []
  | instr :: instrs => instrNames instr ++ instrsNames instrs

end

def termNames : Terminator → List String
  | .ret (some op)       => operandNames op
  | .branch op _ _       => operandNames op
  | .branchCmp _ a b _ _ => operandNames a ++ operandNames b
  | _                    => []

def dataValueNames : Hcc.DataValue → List String
  | .byte _        => []
  | .address label => [label]

def itemNames : TopItemIr → List String
  | .data item   => item.label :: item.values.flatMap dataValueNames
  | .function fn =>
    fn.name :: fn.blocks.flatMap fun block => instrsNames block.instrs ++ termNames block.term

end Names

section Transmits

def FitsInt (n : Int) : Prop :=
  -2 ^ 31 ≤ n ∧ n < 2 ^ 31

def FitsLong (n : Int) : Prop :=
  -2 ^ 63 ≤ n ∧ n < 2 ^ 63

def OperandFits : Hcc.Operand → Prop
  | .temp t         => FitsLong t.index
  | .imm value      => FitsLong value
  | .immBytes bytes => ∀ byte ∈ bytes, FitsInt byte
  | .global _       => True
  | .function _     => True

-- The numbers of an instruction fit into the fields that hold them, and a callee has a name.
mutual

def InstrFits : Hcc.Instr → Prop
  | .param t n | .alloca t n | .const t n      => FitsInt t.index ∧ FitsLong n
  | .copy t op | .load64 t op | .load32 t op | .loadS32 t op | .load16 t op | .loadS16 t op
  | .load8 t op | .loadS8 t op                 => FitsInt t.index ∧ OperandFits op
  | .addrOf t source                           => FitsInt t.index ∧ FitsInt source.index
  | .store64 a b | .store32 a b | .store16 a b | .store8 a b => OperandFits a ∧ OperandFits b
  | .sext t n op | .zext t n op | .trunc t n op => FitsInt t.index ∧ FitsLong n ∧ OperandFits op
  | .bin t _ a b                               => FitsInt t.index ∧ OperandFits a ∧ OperandFits b
  | .call result name args                     =>
    name ≠ "" ∧ (∀ t ∈ result, FitsInt t.index) ∧ ∀ arg ∈ args, OperandFits arg
  | .callIndirect result callee args           =>
    (∀ t ∈ result, FitsInt t.index) ∧ OperandFits callee ∧ ∀ arg ∈ args, OperandFits arg
  | .cond t condInstrs condOp trueInstrs trueOp falseInstrs falseOp =>
    FitsInt t.index ∧ InstrsFit condInstrs ∧ OperandFits condOp ∧ InstrsFit trueInstrs ∧
      OperandFits trueOp ∧ InstrsFit falseInstrs ∧ OperandFits falseOp

def InstrsFit : List Hcc.Instr → Prop
  | []              => True
  | instr :: instrs => InstrFits instr ∧ InstrsFit instrs

end

-- A terminator that returns an immediate consisting of bytes is not read back.
def ReturnsBytes : Terminator → Prop
  | .ret (some (.immBytes bytes)) => bytes ≠ []
  | _                             => False

def TermFits : Terminator → Prop
  | .ret none                => True
  | .ret (some op)           => OperandFits op
  | .jump target             => FitsInt target.index
  | .branch op yes no        => OperandFits op ∧ FitsInt yes.index ∧ FitsInt no.index
  | .branchCmp _ a b yes no  => OperandFits a ∧ OperandFits b ∧ FitsInt yes.index ∧ FitsInt no.index

def DataValueFits : Hcc.DataValue → Prop
  | .byte value    => FitsInt value
  | .address label => label ≠ ""

-- The lengths of the maximal runs of zero bytes.
def zeroRunLengths : List Hcc.DataValue → List Nat
  | []              => []
  | .byte 0 :: rest => ((zeroRun rest).1 + 1) :: zeroRunLengths (zeroRun rest).2
  | _ :: rest       => zeroRunLengths rest
termination_by values => values.length
decreasing_by
  · exact Nat.lt_succ_of_le (zeroRun_length rest)
  · simp

-- The condition for an item to be transmitted by the textual IR.
def Transmits : TopItemIr → Prop
  | .data item   =>
    item.label ≠ "" ∧ (∀ value ∈ item.values, DataValueFits value) ∧
      ∀ run ∈ zeroRunLengths item.values, FitsInt run
  | .function fn =>
    fn.name ≠ "" ∧ ∀ block ∈ fn.blocks,
      FitsInt block.id.index ∧ InstrsFit block.instrs ∧ TermFits block.term ∧ ¬ReturnsBytes block.term

end Transmits
end Hcc.M1
