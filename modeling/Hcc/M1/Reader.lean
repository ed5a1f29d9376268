import Hcc.Library.CInteger
import Hcc.Library.Fuel

-- The reader of the textual IR in `hcc_m1.c`.
namespace Hcc.M1

open CInteger

def OP_TEMP : Int := 1
def OP_IMM : Int := 2
def OP_BYTES : Int := 3
def OP_GLOBAL : Int := 4
def OP_FUNC : Int := 5

def TK_RET : Int := 1
def TK_JUMP : Int := 2
def TK_BRANCH : Int := 3
def TK_BRANCH_CMP : Int := 4

def LINE_CAP : Nat := 8192

-- The zero values are those of `memset`.
structure Operand where
  kind  : Int := 0
  value : Int := 0
  count : Int := 0
  bytes : List Int := []
  name  : Option String := none
deriving DecidableEq, Repr

-- The fields that do not depend on nested instructions.
structure Fields where
  kind   : Int := 0
  temp   : Int := 0
  temp2  : Int := 0
  value  : Int := 0
  binop  : Int := 0
  a      : Operand := {}
  b      : Operand := {}
  callee : Operand := {}
  result : Int := -1
  name   : Option String := none
  args   : List Operand := []
  argc   : Int := 0
deriving DecidableEq, Repr

inductive Instr
  | mk (fields : Fields) (condInstrs trueInstrs falseInstrs : List Instr)
       (condOp trueOp falseOp : Operand)

structure Block where
  id        : Int := 0
  instrs    : List Instr := []
  termKind  : Int := 0
  termOp    : Operand := {}
  termB     : Operand := {}
  termBinop : Int := 0
  yes       : Int := 0
  no        : Int := 0

structure Function where
  name   : String
  blocks : List Block

structure DataValue where
  kind  : Int := 0
  byte  : Int := 0
  label : Option String := none
deriving DecidableEq, Repr

structure DataItem where
  label  : String
  values : List DataValue
deriving DecidableEq, Repr

-- What is handed to the emitter.
inductive Item
  | data     (item : DataItem)
  | function (fn : Function)

abbrev File := List Char

-- A pointer into a string that is terminated by a NUL byte.
abbrev Cursor := List Char

-- `die` ends the program with a message.
abbrev Parse := Except String

def long : IntType where
  size     := 8
  unsigned := false

def readLine.go (buf : List Char) : File → Parse (Option (List Char) × File)
  | []        => if buf.isEmpty then .ok (none, []) else .ok (some buf.reverse, [])
  | c :: file =>
    if c = '\n' then .ok (some buf.reverse, file)
    else if c ≠ '\r' then
      if buf.length + 1 ≥ LINE_CAP then .error "input line too long" else go (c :: buf) file
    else go buf file

-- The rest of a line after a NUL byte is not visible to the string functions.
def readLine (file : File) : Parse (Option (List Char) × File) := do
  let (line, file) ← readLine.go [] file
  return (line.map (·.takeWhile (· ≠ '\x00')), file)

def isBlank (c : Char) : Bool :=
  c = ' ' || c = '\t'

-- The token is terminated in place, so the cursor moves behind the blank that follows it.
def nextToken (cursor : Cursor) : Option (List Char) × Cursor :=
  match cursor.dropWhile isBlank with
  | [] => (none, [])
  | p  => (some (p.takeWhile (!isBlank ·)), (p.dropWhile (!isBlank ·)).tail)

def needToken (cursor : Cursor) : Parse (List Char × Cursor) :=
  match nextToken cursor with
  | (some tok, cursor) => .ok (tok, cursor)
  | (none, _)          => .error "truncated input line"

def parseLongText.digits (value : Int) : List Char → Int × List Char
  | []        => (value, [])
  | c :: text =>
    if '0' ≤ c && c ≤ '9' then digits (long.wrap (value * 10 + (c.toNat - '0'.toNat))) text
    else (value, c :: text)

def parseLongText.sign : List Char → Int × List Char
  | '-' :: text => (-1, text)
  | text        => (1, text)

def parseLongText (text : List Char) : Parse Int :=
  let (sign, text) := parseLongText.sign text
  let (value, text) := parseLongText.digits 0 text
  if text ≠ [] then .error ("bad integer token: " ++ String.ofList text)
  else .ok (long.wrap (sign * value))

def parseLongToken (cursor : Cursor) : Parse (Int × Cursor) := do
  let (tok, cursor) ← needToken cursor
  return (← parseLongText tok, cursor)

def parseIntToken (cursor : Cursor) : Parse (Int × Cursor) := do
  let (value, cursor) ← parseLongToken cursor
  return (IntType.int.wrap value, cursor)

def needName (cursor : Cursor) : Parse (String × Cursor) := do
  let (tok, cursor) ← needToken cursor
  return (String.ofList tok, cursor)

-- Reads `count` elements in a row.
def parseMany (parse : Cursor → Parse (α × Cursor)) : (count : Nat) → Cursor → Parse (List α × Cursor)
  | 0,         cursor => .ok ([], cursor)
  | count + 1, cursor => do
    let (value, cursor) ← parse cursor
    let (values, cursor) ← parseMany parse count cursor
    return (value :: values, cursor)

def parseIrOperand (cursor : Cursor) : Parse (Operand × Cursor) := do
  let (tok, cursor) ← needToken cursor
  match tok with
  | 'T' :: text => return ({ kind := OP_TEMP, value := ← parseLongText text }, cursor)
  | 'I' :: text => return ({ kind := OP_IMM, value := ← parseLongText text }, cursor)
  | 'B' :: text =>
    let count := IntType.int.wrap (← parseLongText text)
    let (bytes, cursor) ← parseMany parseIntToken count.toNat cursor
    return ({ kind := OP_BYTES, count := count, bytes := bytes }, cursor)
  | 'G' :: text => return ({ kind := OP_GLOBAL, name := String.ofList text }, cursor)
  | 'F' :: text => return ({ kind := OP_FUNC, name := String.ofList text }, cursor)
  | _           => .error ("unknown IR operand kind: " ++ String.ofList tok)

def parseIrResult (cursor : Cursor) : Parse (Int × Cursor) := do
  let (tok, cursor) ← needToken cursor
  if tok = ['-'] then return (-1, cursor) else return (IntType.int.wrap (← parseLongText tok), cursor)

def parseIrPrefixedOperand (line mark : List Char) : Parse Operand := do
  let (tok, cursor) ← needToken line
  if tok ≠ mark then .error "unexpected IR operand prefix"
  else return (← parseIrOperand cursor).1

def parseArgs (cursor : Cursor) : Parse (Int × List Operand) := do
  let (argc, cursor) ← parseIntToken cursor
  let (args, _) ← parseMany parseIrOperand argc.toNat cursor
  return (argc, args)

-- The instructions that consist of a single line.
def parseIrFields (kind : Int) (cursor : Cursor) : Parse Fields :=
  let instr : Fields := { kind := kind }
  if kind ∈ [1, 2, 3] then do
    let (temp, cursor) ← parseIntToken cursor
    let (value, _) ← parseLongToken cursor
    return { instr with temp := temp, value := value }
  else if kind ∈ [5, 7, 8, 9, 10, 11, 12, 13] then do
    let (temp, cursor) ← parseIntToken cursor
    let (a, _) ← parseIrOperand cursor
    return { instr with temp := temp, a := a }
  else if kind ∈ [22, 23, 24] then do
    let (temp, cursor) ← parseIntToken cursor
    let (value, cursor) ← parseLongToken cursor
    let (a, _) ← parseIrOperand cursor
    return { instr with temp := temp, value := value, a := a }
  else if kind = 6 then do
    let (temp, cursor) ← parseIntToken cursor
    let (temp2, _) ← parseIntToken cursor
    return { instr with temp := temp, temp2 := temp2 }
  else if kind ∈ [14, 15, 16, 17] then do
    let (a, cursor) ← parseIrOperand cursor
    let (b, _) ← parseIrOperand cursor
    return { instr with a := a, b := b }
  else if kind = 18 then do
    let (temp, cursor) ← parseIntToken cursor
    let (binop, cursor) ← parseIntToken cursor
    let (a, cursor) ← parseIrOperand cursor
    let (b, _) ← parseIrOperand cursor
    return { instr with temp := temp, binop := binop, a := a, b := b }
  else if kind = 19 then do
    let (result, cursor) ← parseIrResult cursor
    let (name, cursor) ← needName cursor
    let (argc, args) ← parseArgs cursor
    return { instr with result := result, name := name, argc := argc, args := args }
  else if kind = 20 then do
    let (result, cursor) ← parseIrResult cursor
    let (callee, cursor) ← parseIrOperand cursor
    let (argc, args) ← parseArgs cursor
    return { instr with result := result, callee := callee, argc := argc, args := args }
  else .error "unknown IR instruction"

def IK_COND : Int := 21

abbrev Reader := Fueled String

def expectLine (file : File) (expected : List Char) : Parse File := do
  match ← readLine file with
  | (none, _)         => .error "unexpected eof"
  | (some line, file) => if line = expected then return file else .error "unexpected section marker"

def readPrefixedOperand (file : File) (missing : String) : Parse (Operand × File) := do
  match ← readLine file with
  | (none, _)            => .error missing
  | (some section', file) => return (← parseIrPrefixedOperand section' ['O'], file)

section

variable (parseIrInstrsUntilEnd : File → Reader (List Instr × File))

def parseIrInstrLine (file : File) (line : List Char) : Reader (Instr × File) := do
  let (tok, cursor) ← needToken line
  let kind := IntType.int.wrap (← parseLongText tok)
  if kind = IK_COND then
    let (temp, _) ← parseIntToken cursor
    let file ← expectLine file ['[']
    let (condInstrs, file) ← parseIrInstrsUntilEnd file
    let (condOp, file) ← readPrefixedOperand file "missing IR CONDOP"
    let file ← expectLine file ['[']
    let (trueInstrs, file) ← parseIrInstrsUntilEnd file
    let (trueOp, file) ← readPrefixedOperand file "missing IR TRUEOP"
    let file ← expectLine file ['[']
    let (falseInstrs, file) ← parseIrInstrsUntilEnd file
    let (falseOp, file) ← readPrefixedOperand file "missing IR FALSEOP"
    let file ← expectLine file ['Q']
    return (.mk { kind := kind, temp := temp } condInstrs trueInstrs falseInstrs condOp trueOp falseOp,
      file)
  else
    return (.mk (← parseIrFields kind cursor) [] [] [] {} {} {}, file)

end

def parseIrInstrsUntilEnd : (fuel : Nat) → File → Reader (List Instr × File)
  | 0,        _    => .outOfFuel
  | fuel + 1, file => do
    match ← readLine file with
    | (none, _)         => throw "unexpected eof in IR nested instructions"
    | (some line, file) =>
      if line = [']'] then return ([], file)
      else
        let (instr, file) ← parseIrInstrLine (parseIrInstrsUntilEnd fuel) file line
        let (instrs, file) ← parseIrInstrsUntilEnd fuel file
        return (instr :: instrs, file)

-- A returned operand is reparsed from its first token, which has already been terminated.
def parseIrTerm (line : List Char) : Parse Block := do
  let (tok, cursor) ← needToken line
  if tok = ['R'] then
    match nextToken cursor with
    | (some tok, _) => return { termKind := TK_RET, termOp := (← parseIrOperand tok).1 }
    | (none, _)     => return { termKind := TK_RET }
  else if tok = ['J'] then
    let (yes, _) ← parseIntToken cursor
    return { termKind := TK_JUMP, yes := yes }
  else if tok = ['B'] then
    let (op, cursor) ← parseIrOperand cursor
    let (yes, cursor) ← parseIntToken cursor
    let (no, _) ← parseIntToken cursor
    return { termKind := TK_BRANCH, termOp := op, yes := yes, no := no }
  else if tok = ['C'] then
    let (binop, cursor) ← parseIntToken cursor
    let (op, cursor) ← parseIrOperand cursor
    let (b, cursor) ← parseIrOperand cursor
    let (yes, cursor) ← parseIntToken cursor
    let (no, _) ← parseIntToken cursor
    return { termKind := TK_BRANCH_CMP, termBinop := binop, termOp := op, termB := b, yes := yes,
             no := no }
  else .error "unknown IR terminator"

def isTermLine (line : List Char) : Bool :=
  ['R'].isPrefixOf line || ['J', ' '].isPrefixOf line || ['B', ' '].isPrefixOf line ||
    ['C', ' '].isPrefixOf line

-- The instructions of a block up to the line of its terminator.
def parseIrBlock.body : (fuel : Nat) → File → Reader (List Instr × Block × File)
  | 0,        _    => .outOfFuel
  | fuel + 1, file => do
    match ← readLine file with
    | (none, _)         => throw "unexpected eof in IR block"
    | (some line, file) =>
      if isTermLine line then return ([], ← parseIrTerm line, file)
      else
        let (instr, file) ← parseIrInstrLine (parseIrInstrsUntilEnd fuel) file line
        let (instrs, term, file) ← parseIrBlock.body fuel file
        return (instr :: instrs, term, file)

def parseIrBlock (fuel : Nat) (file : File) (firstLine : List Char) : Reader (Block × File) := do
  let (tok, cursor) ← needToken firstLine
  if tok ≠ ['L'] then throw "expected IR block"
  else
    let (id, _) ← parseIntToken cursor
    let (instrs, term, file) ← parseIrBlock.body fuel file
    return ({ term with id := id, instrs := instrs }, file)

def parseIrFunction.blocks : (fuel : Nat) → File → Reader (List Block × File)
  | 0,        _    => .outOfFuel
  | fuel + 1, file => do
    match ← readLine file with
    | (none, _)         => throw "unexpected eof in IR function"
    | (some line, file) =>
      if line = ['E'] then return ([], file)
      else
        let (block, file) ← parseIrBlock fuel file line
        let (blocks, file) ← parseIrFunction.blocks fuel file
        return (block :: blocks, file)

def parseIrFunction (fuel : Nat) (file : File) (firstLine : List Char) : Reader (Function × File) := do
  let (tok, cursor) ← needToken firstLine
  if tok ≠ ['F'] then throw "expected IR function"
  else
    let (name, _) ← needName cursor
    let (blocks, file) ← parseIrFunction.blocks fuel file
    return ({ name := name, blocks := blocks }, file)

def zeroDataValue : DataValue where
  kind := 1

def parseIrDataValue (line : List Char) : Parse (List DataValue) := do
  let (tok, cursor) ← needToken line
  if tok = ['z'] then
    let (count, _) ← parseIntToken cursor
    if count < 0 then .error "negative zero data run"
    else return List.replicate count.toNat zeroDataValue
  else if tok = ['b'] then
    let (byte, _) ← parseIntToken cursor
    return [{ kind := 1, byte := byte }]
  else if tok = ['a'] then
    let (label, _) ← needName cursor
    return [{ kind := 2, label := label }]
  else .error "unknown IR data value"

def parseIrDataItem.values : (fuel : Nat) → File → Reader (List DataValue × File)
  | 0,        _    => .outOfFuel
  | fuel + 1, file => do
    match ← readLine file with
    | (none, _)         => throw "unexpected eof in IR data"
    | (some line, file) =>
      if line = ['E'] then return ([], file)
      else
        let value ← parseIrDataValue line
        let (values, file) ← parseIrDataItem.values fuel file
        return (value ++ values, file)

def parseIrDataItem (fuel : Nat) (file : File) (firstLine : List Char) :
    Reader (DataItem × File) := do
  let (tok, cursor) ← needToken firstLine
  if tok ≠ ['D'] then throw ("expected IR data item: " ++ String.ofList tok)
  else
    let (label, _) ← needName cursor
    let (values, file) ← parseIrDataItem.values fuel file
    return ({ label := label, values := values }, file)

-- The items of a module in the order in which they are handed to the emitter.
def translateIrModule : (fuel : Nat) → File → Reader (List Item)
  | 0,        _    => .outOfFuel
  | fuel + 1, file => do
    match ← readLine file with
    | (none, _)         => return []
    | (some line, file) =>
      if ['D', ' '].isPrefixOf line then
        let (item, file) ← parseIrDataItem fuel file line
        return .data item :: (← translateIrModule fuel file)
      else if ['F', ' '].isPrefixOf line then
        let (fn, file) ← parseIrFunction fuel file line
        return .function fn :: (← translateIrModule fuel file)
      else if line ≠ [] then throw "unexpected IR top-level line"
      else translateIrModule fuel file

end Hcc.M1
