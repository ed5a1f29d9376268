import Hcc.Ir.Basic

namespace Hcc

def binOpCode : BinOp → Int
  | .add  => 1
  | .sub  => 2
  | .mul  => 3
  | .div  => 4
  | .mod  => 5
  | .shl  => 6
  | .shr  => 7
  | .sar  => 8
  | .eq   => 9
  | .ne   => 10
  | .lt   => 11
  | .le   => 12
  | .gt   => 13
  | .ge   => 14
  | .ult  => 15
  | .ule  => 16
  | .ugt  => 17
  | .uge  => 18
  | .and  => 19
  | .or   => 20
  | .xor  => 21
  | .udiv => 22
  | .umod => 23

def tempText (t : Temp) : String :=
  toString (t.index : Int)

def blockIdText (bid : BlockId) : String :=
  toString (bid.index : Int)

def listIrFieldsRest (render : α → String) : List α → String
  | []            => ""
  | value :: rest => " " ++ render value ++ listIrFieldsRest render rest

def listIrFields (render : α → String) (values : List α) : String :=
  toString (values.length : Int) ++ listIrFieldsRest render values

def operandIrFields : Operand → String
  | .temp t         => "T" ++ tempText t
  | .imm value      => "I" ++ toString value
  | .immBytes bytes => "B" ++ listIrFields toString bytes
  | .global name    => "G" ++ name
  | .function name  => "F" ++ name

def terminatorIrLine : Terminator → String
  | .ret none                    => "R"
  | .ret (some op)               => "R " ++ operandIrFields op
  | .jump bid                    => "J " ++ blockIdText bid
  | .branch op yes no            =>
    "B " ++ operandIrFields op ++ " " ++ blockIdText yes ++ " " ++ blockIdText no
  | .branchCmp op a b yes no     =>
    "C " ++ toString (binOpCode op) ++ " " ++ operandIrFields a ++ " " ++ operandIrFields b ++ " " ++
      blockIdText yes ++ " " ++ blockIdText no

def emitTempOp (code : Int) (t : Temp) (op : Operand) : List String :=
  [toString code ++ " " ++ tempText t ++ " " ++ operandIrFields op]

def emitOpOp (code : Int) (a b : Operand) : List String :=
  [toString code ++ " " ++ operandIrFields a ++ " " ++ operandIrFields b]

def emitExt (code : Int) (t : Temp) (size : Int) (op : Operand) : List String :=
  [toString code ++ " " ++ tempText t ++ " " ++ toString size ++ " " ++ operandIrFields op]

-- The text is modeled by the lines that are passed to the writer.
mutual

def emitInstrIr : Instr → List String
  | .param t index      => ["1 " ++ tempText t ++ " " ++ toString index]
  | .alloca t size      => ["2 " ++ tempText t ++ " " ++ toString size]
  | .const t value      => ["3 " ++ tempText t ++ " " ++ toString value]
  | .copy t op          => emitTempOp 5 t op
  | .addrOf t source    => ["6 " ++ tempText t ++ " " ++ tempText source]
  | .load64 t op        => emitTempOp 7 t op
  | .load32 t op        => emitTempOp 8 t op
  | .loadS32 t op       => emitTempOp 9 t op
  | .load16 t op        => emitTempOp 10 t op
  | .loadS16 t op       => emitTempOp 11 t op
  | .load8 t op         => emitTempOp 12 t op
  | .loadS8 t op        => emitTempOp 13 t op
  | .store64 addr value => emitOpOp 14 addr value
  | .store32 addr value => emitOpOp 15 addr value
  | .store16 addr value => emitOpOp 16 addr value
  | .store8 addr value  => emitOpOp 17 addr value
  | .sext t size op     => emitExt 22 t size op
  | .zext t size op     => emitExt 23 t size op
  | .trunc t size op    => emitExt 24 t size op
  | .bin t op left right =>
    ["18 " ++ tempText t ++ " " ++ toString (binOpCode op) ++ " " ++ operandIrFields left ++ " " ++
      operandIrFields right]
  | .call result name args =>
    ["19 " ++ (result.map tempText).getD "-" ++ " " ++ name ++ " " ++ listIrFields operandIrFields args]
  | .callIndirect result callee args =>
    ["20 " ++ (result.map tempText).getD "-" ++ " " ++ operandIrFields callee ++ " " ++
      listIrFields operandIrFields args]
  | .cond t condInstrs condOp trueInstrs trueOp falseInstrs falseOp =>
    ["21 " ++ tempText t] ++
      ["["] ++ emitInstrsIr condInstrs ++ ["]"] ++ ["O " ++ operandIrFields condOp] ++
      ["["] ++ emitInstrsIr trueInstrs ++ ["]"] ++ ["O " ++ operandIrFields trueOp] ++
      ["["] ++ emitInstrsIr falseInstrs ++ ["]"] ++ ["O " ++ operandIrFields falseOp] ++
      ["Q"]

def emitInstrsIr : List Instr → List String
  | []              => []
  | instr :: instrs => emitInstrIr instr ++ emitInstrsIr instrs

end

def emitBlockIr (block : BasicBlock) : List String :=
  ["L " ++ blockIdText block.id] ++ emitInstrsIr block.instrs ++ [terminatorIrLine block.term]

def emitBlocksIr (blocks : List BasicBlock) : List String :=
  blocks.flatMap emitBlockIr

def emitFunctionIr (fn : FunctionIr) : List String :=
  ["F " ++ fn.name] ++ emitBlocksIr fn.blocks ++ ["E"]

def dataValueIrLine : DataValue → String
  | .byte value    => "b " ++ toString value
  | .address label => "a " ++ label

def zeroRun : List DataValue → Nat × List DataValue
  | .byte 0 :: rest => ((zeroRun rest).1 + 1, (zeroRun rest).2)
  | values          => (0, values)

theorem zeroRun_length (values) : (zeroRun values).2.length ≤ values.length := by
  fun_induction zeroRun <;> simp at *
  omega

def emitDataValuesIr : List DataValue → List String
  | []              => []
  | .byte 0 :: rest =>
    ("z " ++ toString ((zeroRun rest).1 + 1 : Int)) :: emitDataValuesIr (zeroRun rest).2
  | value :: rest   => dataValueIrLine value :: emitDataValuesIr rest
termination_by values => values.length
decreasing_by
  · exact Nat.lt_succ_of_le (zeroRun_length rest)
  · simp

def emitDataItemIr (item : DataItem) : List String :=
  ["D " ++ item.label] ++ emitDataValuesIr item.values ++ ["E"]

def emitTopItemIr : TopItemIr → List String
  | .data item   => emitDataItemIr item
  | .function fn => emitFunctionIr fn

def emitTopItemsIr (items : List TopItemIr) : List String :=
  items.flatMap emitTopItemIr

-- The bytes that are published for a list of lines.
def irText (lines : List String) : List Char :=
  lines.flatMap fun line => line.toList ++ ['\n']

end Hcc
