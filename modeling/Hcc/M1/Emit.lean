import Hcc.M1.Machine
import Hcc.M1.Reader

-- The emission of calls and of the access to parameters in `hcc_m1.c`. A mnemonic is represented by the
-- effect of the instruction that it is defined as.
namespace Hcc.M1

open CInteger

def IK_PARAM : Int := 1
def IK_COPY : Int := 5
def IK_CALL : Int := 19
def IK_CALLI : Int := 20

inductive LocKind
  | stack
  | object
deriving DecidableEq, Repr

-- `LOC_NONE` is represented by the absence of a location.
structure Loc where
  kind  : LocKind
  slot  : Int
  slots : Int
deriving DecidableEq, Repr

abbrev LocArray := Int → Option Loc

structure EmitState where
  raxTemp       : Int := -1
  omitStoreTemp : Int := -1
deriving DecidableEq, Repr

-- Emitted code and the state after its emission. `die` ends the emission with a message.
abbrev Emitted := Except String (List Insn × EmitState)

def lookupLoc (locs : LocArray) (temp : Int) : Except String Loc :=
  match locs temp with
  | none     => .error "missing allocation"
  | some loc => .ok loc

def emitForgetRax (state : EmitState) : EmitState :=
  { state with raxTemp := -1 }

def emitRememberRaxTemp (state : EmitState) (temp : Int) : EmitState :=
  { state with raxTemp := temp }

def targetRegisterArgCount : Target → Nat
  | .i386               => 0
  | .aarch64 | .riscv64 => 8
  | .amd64              => 6

section AArch64

-- The immediate has twelve bits.
def aarch64EmitAddSubImm (isSub : Bool) (dst src : Reg) (imm : Int) : List Insn :=
  [.addImm dst src (if isSub then -(imm % 4096) else imm % 4096)]

def aarch64EmitAddImmReg.loop (dst base : Reg) (remaining : Int) : List Insn :=
  if remaining > 0 then
    let chunk := if remaining > 4095 then 4095 else remaining
    aarch64EmitAddSubImm false dst base chunk ++ loop dst dst (remaining - chunk)
  else []
termination_by remaining.toNat
decreasing_by split <;> omega

def aarch64EmitAddImmReg (dst src : Reg) (imm : Int) : List Insn :=
  if imm = 0 then (if dst ≠ src then [.move dst src] else [])
  else aarch64EmitAddImmReg.loop dst src imm

def aarch64EmitSubImmReg (reg : Reg) (remaining : Int) : List Insn :=
  if remaining > 0 then
    let chunk := if remaining > 4095 then 4095 else remaining
    aarch64EmitAddSubImm true reg reg chunk ++ aarch64EmitSubImmReg reg (remaining - chunk)
  else []
termination_by remaining.toNat
decreasing_by split <;> omega

def aarch64Scale (size : Nat) : Int :=
  if size = 8 then 8 else if size = 4 then 4 else if size = 2 then 2 else 1

-- The offset is encoded in the instruction.
def aarch64Encodable (size : Nat) (offset : Int) : Prop :=
  offset ≥ 0 ∧ offset % aarch64Scale size = 0 ∧ offset / aarch64Scale size < 4096

instance : Decidable (aarch64Encodable size offset) :=
  inferInstanceAs <| Decidable (_ ∧ _ ∧ _)

def aarch64EmitLoadStore (isLoad : Bool) (size : Nat) (isSigned : Bool) (base : Reg) (offset : Int) :
    List Insn :=
  let access base offset : Insn :=
    if isLoad then .load size (isSigned && size ≠ 8) 0 base offset else .store size 0 base offset
  if aarch64Encodable size offset then [access base offset]
  else aarch64EmitAddImmReg 16 base offset ++ [access 16 0]

end AArch64

section RiscV64

def riscv64EmitMovReg (dst src : Reg) : List Insn :=
  if dst = src then [] else [.move dst src]

def riscv64EmitAddImmReg.loop (dst base : Reg) (remaining : Int) : List Insn :=
  if remaining > 2047 then .addImm dst base 2047 :: loop dst dst (remaining - 2047)
  else if remaining < -2048 then .addImm dst base (-2048) :: loop dst dst (remaining + 2048)
  else [.addImm dst base remaining]
termination_by remaining.natAbs

def riscv64EmitAddImmReg (dst src : Reg) (imm : Int) : List Insn :=
  if imm = 0 then riscv64EmitMovReg dst src else riscv64EmitAddImmReg.loop dst src imm

-- The literal is placed behind the instructions that load it.
def riscv64EmitLoadLiteral (reg : Reg) (value : Int) : List Insn :=
  [.label 6 "LITERAL", .const reg value]

def riscv64EmitLoadImmediate (reg : Reg) (value : Int) : List Insn :=
  if value ≥ -2048 ∧ value ≤ 2047 then riscv64EmitAddImmReg reg 0 value
  else riscv64EmitLoadLiteral reg value

def riscv64EmitLoadStoreFrom (isLoad : Bool) (size : Nat) (isSigned : Bool) (base : Reg)
    (offset : Int) (src : Reg) : List Insn :=
  let access base offset : Insn :=
    if isLoad then .load size (isSigned && size ≠ 8) 10 base offset else .store size src base offset
  if (isLoad ∧ offset ≥ -2048 ∧ offset ≤ 2047) ∨ (¬isLoad ∧ offset = 0) then [access base offset]
  else riscv64EmitLoadLiteral 5 offset ++ [.add 5 base 5, access 5 0]

def riscv64EmitLoadStore (isLoad : Bool) (size : Nat) (isSigned : Bool) (base : Reg) (offset : Int) :
    List Insn :=
  riscv64EmitLoadStoreFrom isLoad size isSigned base offset 10

def riscv64ArgReg (index : Nat) : Reg :=
  index + 10

end RiscV64

section Operands

variable (t : Target)

-- The accesses to the word at an offset of the stack pointer.
def emitLoadStack (offset : Int) : List Insn :=
  match t with
  | .aarch64 => aarch64EmitLoadStore true 8 false 18 offset
  | .riscv64 => riscv64EmitLoadStore true 8 false 2 offset
  | _        => [.load t.wordBytes false t.acc t.sp offset]

def emitStoreStack (offset : Int) : List Insn :=
  match t with
  | .aarch64 => aarch64EmitLoadStore false 8 false 18 offset
  | .riscv64 => riscv64EmitLoadStore false 8 false 2 offset
  | _        => [.store t.wordBytes t.acc t.sp offset]

def emitAddressStack (offset : Int) : List Insn :=
  match t with
  | .aarch64 => aarch64EmitAddImmReg 0 18 offset
  | .riscv64 => riscv64EmitAddImmReg 10 2 offset
  | _        => [.addImm t.acc t.sp offset]

def emitLoadImmediate (value : Int) : List Insn :=
  match t with
  | .riscv64 => riscv64EmitLoadImmediate 10 value
  | _        => [.const t.acc value]

-- The little-endian value of the leading bytes.
def bytesValue (op : Operand) : (n : Nat) → Int
  | 0     => 0
  | n + 1 => bytesValue op n + ((op.bytes.take op.count.toNat).getD n 0 % 256) * 256 ^ n

def emitLoadImmediateBytes (op : Operand) : List Insn :=
  emitLoadImmediate t (long.wrap (bytesValue op t.wordBytes))

def emitLoadLabel (name : String) : List Insn :=
  [.label t.acc name]

def emitLoadLocation (loc : Loc) (rspBias : Int) : List Insn :=
  let offset := IntType.int.wrap (t.wordBytes * loc.slot + rspBias)
  match loc.kind with
  | .stack  => emitLoadStack t offset
  | .object => emitAddressStack t offset

def emitLoadOperand (locs : LocArray) (rspBias : Int) (op : Operand) (state : EmitState) : Emitted :=
  if op.kind = OP_IMM then .ok (emitLoadImmediate t op.value, emitForgetRax state)
  else if op.kind = OP_BYTES then .ok (emitLoadImmediateBytes t op, emitForgetRax state)
  else if op.kind = OP_GLOBAL then .ok (emitLoadLabel t (op.name.getD ""), emitForgetRax state)
  else if op.kind = OP_FUNC then
    .ok (emitLoadLabel t ("FUNCTION_" ++ op.name.getD ""), emitForgetRax state)
  else if op.kind = OP_TEMP then do
    let loc ← lookupLoc locs op.value
    let direct := rspBias = 0 ∧ loc.kind = .stack
    if direct ∧ state.raxTemp = op.value then return ([], state)
    else return (emitLoadLocation t loc rspBias,
      if direct then emitRememberRaxTemp state op.value else emitForgetRax state)
  else .ok ([], state)

def emitStoreTemp (locs : LocArray) (temp : Int) (state : EmitState) : Emitted := do
  let loc ← lookupLoc locs temp
  match loc.kind with
  | .object => throw "cannot assign stack object"
  | .stack  =>
    if state.omitStoreTemp = temp then return ([], emitRememberRaxTemp state temp)
    else return (emitStoreStack t (IntType.int.wrap (t.wordBytes * loc.slot)),
      emitRememberRaxTemp state temp)

def emitPush : List Insn :=
  match t with
  | .riscv64 => riscv64EmitAddImmReg 2 2 (-8) ++ [.store 8 10 2 0]
  | _        => [.push t.acc]

end Operands

section Calls

variable (t : Target)

def callStackBytes (argc : Int) : Int :=
  match t with
  | .i386 => argc * 4
  | _     =>
    let stackArgs := argc - targetRegisterArgCount t
    if stackArgs ≤ 0 then 0 else stackArgs * 8

def emitCallCleanup (argc : Int) : List Insn :=
  let bytes := IntType.int.wrap (callStackBytes t argc)
  if bytes > 0 then
    match t with
    | .aarch64 => aarch64EmitAddImmReg 18 18 bytes
    | .riscv64 => riscv64EmitAddImmReg 2 2 bytes
    | _        => [.addImm t.sp t.sp bytes]
  else []

def emitArgumentMove (index : Nat) : Except String (List Insn) :=
  match t with
  | .aarch64 =>
    if index = 0 then .ok []
    else if index < 8 then .ok [.move index 0]
    else .error "bad argument register"
  | .riscv64 =>
    if index = 0 then .ok []
    else if index < 8 then .ok (riscv64EmitMovReg (riscv64ArgReg index) 10)
    else .error "bad riscv64 argument register"
  | _ =>
    match [7, 6, 2, 1, 8, 9][index]? with
    | some reg => .ok [.move reg 0]
    | none     => .error "bad argument register"

-- The arguments with an index from `limit` to below `i` are pushed, from the last to the first.
def emitPushedArguments (locs : LocArray) (args : List Operand) (limit : Nat) :
    (i : Nat) → (pushed : Int) → EmitState → Emitted
  | 0,     _,      state => .ok ([], state)
  | i + 1, pushed, state =>
    if i ≥ limit then do
      let bias := IntType.int.wrap (pushed * t.wordBytes)
      let (load, state) ← emitLoadOperand t locs bias (args.getD i {}) state
      let (rest, state) ← emitPushedArguments locs args limit i (pushed + 1) state
      return (load ++ emitPush t ++ rest, state)
    else .ok ([], state)

-- The arguments with the given indices are moved to their registers.
def emitRegisterArguments (locs : LocArray) (args : List Operand) :
    (indices : List Nat) → EmitState → Emitted
  | [],           state => .ok ([], state)
  | i :: indices, state => do
    let bias := IntType.int.wrap (callStackBytes t args.length)
    let (load, state) ← emitLoadOperand t locs bias (args.getD i {}) state
    let move ← emitArgumentMove t i
    let (rest, state) ← emitRegisterArguments locs args indices state
    return (load ++ move ++ rest, state)

def emitArguments (locs : LocArray) (args : List Operand) (state : EmitState) : Emitted := do
  let limit := targetRegisterArgCount t
  let (pushed, state) ← emitPushedArguments t locs args limit args.length 0 state
  let indices := List.range (min args.length limit)
  let (registers, state) ← emitRegisterArguments t locs args
    (if t = .amd64 then indices else indices.reverse) state
  return (pushed ++ registers, state)

-- The result of a call.
def emitCallResult (locs : LocArray) (result : Int) (argc : Int) (state : EmitState) : Emitted := do
  let state := emitForgetRax state
  let (store, state) ← if result ≥ 0 then emitStoreTemp t locs result state else pure ([], state)
  return (emitCallCleanup t argc ++ store, state)

-- `IK_CALL`
def emitCall (locs : LocArray) (name : String) (args : List Operand) (result : Int)
    (state : EmitState) : Emitted := do
  let (arguments, state) ← emitArguments t locs args state
  let label := "FUNCTION_" ++ name
  let call := match t with
    | .aarch64 => [.label 16 label, .callReg 16]
    | .riscv64 => [.label 7 label, .callReg 7]
    | _        => [.call label]
  let (rest, state) ← emitCallResult t locs result args.length state
  return (arguments ++ call ++ rest, state)

-- The code of `IK_CALLI` up to the call.
def emitCalliBranch (locs : LocArray) (callee : Operand) (args : List Operand) (state : EmitState) :
    Emitted :=
  match t with
  | .aarch64 => do
    let (load, state) ← emitLoadOperand t locs 0 callee state
    let (arguments, state) ← emitArguments t locs args state
    return (load ++ .move 16 0 :: arguments ++ [.callReg 16], state)
  | .riscv64 => do
    let (load, state) ← emitLoadOperand t locs 0 callee state
    let (arguments, state) ← emitArguments t locs args state
    return (load ++ riscv64EmitMovReg 7 10 ++ arguments ++ [.callReg 7], state)
  | _ => do
    let (arguments, state) ← emitArguments t locs args state
    let bias := IntType.int.wrap (callStackBytes t args.length)
    let (load, state) ← emitLoadOperand t locs bias callee state
    return (arguments ++ load ++ [.callReg t.acc], state)

-- `IK_CALLI`
def emitCalli (locs : LocArray) (callee : Operand) (args : List Operand) (result : Int)
    (state : EmitState) : Emitted := do
  let (call, state) ← emitCalliBranch t locs callee args state
  let (rest, state) ← emitCallResult t locs result args.length state
  return (call ++ rest, state)

-- The moves of `IK_PARAM` to the accumulator.
def emitLoadParam (totalSlots index : Int) : List Insn :=
  let stackParam (registers : Int) :=
    IntType.int.wrap (totalSlots * t.wordBytes + t.wordBytes + (index - registers) * t.wordBytes)
  match t with
  | .i386    => [.load 4 false 0 4 (stackParam 0)]
  | .aarch64 =>
    if index < 8 then (if index = 0 then [] else [.move 0 index.toNat])
    else aarch64EmitLoadStore true 8 false 18 (stackParam 8)
  | .riscv64 =>
    if index < 8 then (if index ≠ 0 then riscv64EmitMovReg 10 (index + 10).toNat else [])
    else riscv64EmitLoadStore true 8 false 2 (stackParam 8)
  | .amd64   =>
    if index = 0 then [.move 0 7]
    else if index = 1 then [.move 0 6]
    else if index = 2 then [.move 0 2]
    else if index = 3 then [.move 0 1]
    else if index = 4 then [.move 0 8]
    else if index = 5 then [.move 0 9]
    else [.load 8 false 0 4 (stackParam 6)]

-- `IK_PARAM`
def emitParam (locs : LocArray) (totalSlots : Int) (temp index : Int) (state : EmitState) :
    Emitted := do
  let (store, state) ← emitStoreTemp t locs temp state
  return (emitLoadParam t totalSlots index ++ store, state)

-- The parameters are the first instructions of a function. Only the last one can be followed by an
-- instruction that finds it in the accumulator, so that its store is elided.
def emitParams (locs : LocArray) (totalSlots elided : Int) :
    (index : Int) → (temps : List Int) → EmitState → Emitted
  | _,     [],            state => .ok ([], state)
  | index, temp :: temps, state => do
    let omitStoreTemp := if temps = [] then elided else -1
    let (param, state) ← emitParam t locs totalSlots temp index { state with omitStoreTemp }
    let (rest, state) ← emitParams locs totalSlots elided (index + 1) temps
      { state with omitStoreTemp := -1 }
    return (param ++ rest, state)

-- The code at the beginning of a function.
def emitPrologue (totalSlots : Int) : List Insn :=
  let link := match t with
    | .aarch64 => [.push 30]
    | .riscv64 => [.addImm 2 2 (-8), .store 8 1 2 0]
    | _        => []
  let bytes := IntType.int.wrap (totalSlots * t.wordBytes)
  let frame := match t with
    | .aarch64 => aarch64EmitSubImmReg 18 bytes
    | .riscv64 => riscv64EmitAddImmReg 2 2 (-bytes)
    | _        => [.addImm t.sp t.sp (-bytes)]
  link ++ if totalSlots > 0 then frame else []

def emitCleanupStack (totalSlots : Int) : List Insn :=
  let bytes := IntType.int.wrap (totalSlots * t.wordBytes)
  if totalSlots > 0 then
    match t with
    | .aarch64 => aarch64EmitAddImmReg 18 18 bytes
    | .riscv64 => riscv64EmitAddImmReg 2 2 bytes
    | _        => [.addImm t.sp t.sp bytes]
  else []

-- The code at the end of a function.
def emitReturn (totalSlots : Int) : List Insn :=
  emitCleanupStack t totalSlots ++
    match t with
    | .aarch64 => [.pop 30, .ret]
    | .riscv64 => [.load 8 false 1 2 0, .addImm 2 2 8, .ret]
    | _        => [.ret]

end Calls

section Elision

-- The temps that a call finds in the accumulator, so that their stores are elided if the call is the
-- only use. This is `instr_consumes_rax_temp` for calls.
def callConsumesRaxTemp (t : Target) (args : List Operand) (temp : Int) : Bool :=
  t = .amd64 && 0 < args.length && args.length ≤ 6 &&
    (args.getD 0 {}).kind = OP_TEMP && (args.getD 0 {}).value = temp

end Elision
end Hcc.M1
