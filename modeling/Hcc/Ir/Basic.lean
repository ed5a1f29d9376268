namespace Hcc

-- Temporaries and blocks are numbered by counters that start at `0`.
structure Temp where
  index : Nat
deriving DecidableEq, Repr

structure BlockId where
  index : Nat
deriving DecidableEq, Repr

inductive Operand
  | temp     (t : Temp)
  | imm      (value : Int)
  | immBytes (bytes : List Int)
  | global   (name : String)
  | function (name : String)
deriving DecidableEq, Repr

inductive BinOp
  | add | sub | mul | div | mod | udiv | umod
  | shl | shr | sar
  | eq | ne | lt | le | gt | ge | ult | ule | ugt | uge
  | and | or | xor
deriving DecidableEq, Repr

inductive Instr
  | param   (t : Temp) (index : Int)
  | alloca  (t : Temp) (size : Int)
  | const   (t : Temp) (value : Int)
  | copy    (t : Temp) (op : Operand)
  | addrOf  (t : Temp) (source : Temp)
  | load64  (t : Temp) (addr : Operand)
  | load32  (t : Temp) (addr : Operand)
  | loadS32 (t : Temp) (addr : Operand)
  | load16  (t : Temp) (addr : Operand)
  | loadS16 (t : Temp) (addr : Operand)
  | load8   (t : Temp) (addr : Operand)
  | loadS8  (t : Temp) (addr : Operand)
  | store64 (addr value : Operand)
  | store32 (addr value : Operand)
  | store16 (addr value : Operand)
  | store8  (addr value : Operand)
  | sext    (t : Temp) (size : Int) (op : Operand)
  | zext    (t : Temp) (size : Int) (op : Operand)
  | trunc   (t : Temp) (size : Int) (op : Operand)
  | bin     (t : Temp) (op : BinOp) (left right : Operand)
  | cond    (t : Temp) (condInstrs : List Instr) (condOp : Operand)
            (trueInstrs : List Instr) (trueOp : Operand)
            (falseInstrs : List Instr) (falseOp : Operand)
  | call    (result : Option Temp) (name : String) (args : List Operand)
  | callIndirect (result : Option Temp) (callee : Operand) (args : List Operand)

inductive Terminator
  | ret       (value : Option Operand)
  | jump      (target : BlockId)
  | branch    (op : Operand) (yes no : BlockId)
  | branchCmp (op : BinOp) (left right : Operand) (yes no : BlockId)
deriving DecidableEq, Repr

structure BasicBlock where
  id     : BlockId
  instrs : List Instr
  term   : Terminator

inductive DataValue
  | byte    (value : Int)
  | address (label : String)
deriving DecidableEq, Repr

structure DataItem where
  label  : String
  values : List DataValue
deriving DecidableEq, Repr

structure FunctionIr where
  name   : String
  blocks : List BasicBlock

inductive TopItemIr
  | data     (item : DataItem)
  | function (fn : FunctionIr)

end Hcc
