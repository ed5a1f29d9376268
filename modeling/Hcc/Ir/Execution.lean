import Hcc.Ir.Arithmetic
import Hcc.Ir.Renaming
import Mathlib.Logic.Function.Basic
import Mathlib.Logic.Relation

-- The execution of instructions and of blocks. What memory, calls and variables do is a parameter.
namespace Hcc

variable {w : Nat} {World : Type}

-- The world is everything that other code can observe.
structure Machine (w : Nat) (World : Type) where
  pos            : 0 < w
  readVar        : World → Temp → Option (BitVec w)
  writeVar       : World → Temp → BitVec w → World
  slotOf         : World → Temp → BitVec w
  loadBytes      : (size : Nat) → World → (addr : BitVec w) → Option (BitVec w)
  storeBytes     : (size : Nat) → World → (addr value : BitVec w) → Option World
  allocate       : World → (size : Int) → Option (World × BitVec w)
  argument       : World → (index : Int) → Option (BitVec w)
  callName       : World → (name : String) → (args : List (BitVec w)) → Option (World × BitVec w)
  callAddress    : World → (callee : BitVec w) → (args : List (BitVec w)) → Option (World × BitVec w)
  arithmetic     : BinOp → (left right : BitVec w) → Option (BitVec w)
  immediateBytes : List Int → BitVec w
  globalAddress  : String → BitVec w
  functionAddress : String → BitVec w

-- The temporaries that do not belong to variables are not part of the world.
structure Frame (w : Nat) (World : Type) where
  world : World
  temps : Temp → Option (BitVec w)

-- The temporaries below `n` belong to variables.
variable (m : Machine w World) (n : Nat)

namespace Machine

def get (s : Frame w World) (t : Temp) : Option (BitVec w) :=
  if t.index < n then m.readVar s.world t else s.temps t

def set (s : Frame w World) (t : Temp) (value : BitVec w) : Frame w World :=
  if t.index < n then { s with world := m.writeVar s.world t value }
  else { s with temps := Function.update s.temps t (some value) }

def operand (s : Frame w World) : Operand → Option (BitVec w)
  | .temp t         => m.get n s t
  | .imm value      => some <| .ofInt w value
  | .immBytes bytes => some <| m.immediateBytes bytes
  | .global name    => some <| m.globalAddress name
  | .function name  => some <| m.functionAddress name

def binary (op : BinOp) (a b : BitVec w) : Option (BitVec w) :=
  if op.condition.isSome then some (op.eval a b) else m.arithmetic op a b

section Steps

variable (s : Frame w World)

def load (size : Nat) (extend : BitVec w → BitVec w) (t : Temp) (addr : Operand) :
    Option (Frame w World) := do
  let a ← m.operand n s addr
  let value ← m.loadBytes size s.world a
  return m.set n s t (extend value)

def store (size : Nat) (addr value : Operand) : Option (Frame w World) := do
  let a ← m.operand n s addr
  let v ← m.operand n s value
  let world ← m.storeBytes size s.world a v
  return { s with world }

def convert (extend : BitVec w → BitVec w) (t : Temp) (op : Operand) : Option (Frame w World) := do
  let value ← m.operand n s op
  return m.set n s t (extend value)

-- A call returns with another world and with a value, which may be dropped.
def returned (result : Option Temp) (r : World × BitVec w) : Frame w World :=
  result.elim { s with world := r.1 } fun t => m.set n { s with world := r.1 } t r.2

end Steps

mutual

def exec : Instr → Frame w World → Option (Frame w World)
  | .param t index,       s => do
    let value ← m.argument s.world index
    return m.set n s t value
  | .alloca t size,       s => do
    let r ← m.allocate s.world size
    return m.returned n s (some t) r
  | .const t value,       s => some <| m.set n s t (.ofInt w value)
  | .copy t op,           s => m.convert n s id t op
  | .addrOf t source,     s =>
    -- Only variables have an address.
    if source.index < n then some <| m.set n s t (m.slotOf s.world source) else none
  | .load64 t addr,       s => m.load n s 8 id t addr
  | .load32 t addr,       s => m.load n s 4 (zextBytes 4) t addr
  | .loadS32 t addr,      s => m.load n s 4 (sextBytes 4) t addr
  | .load16 t addr,       s => m.load n s 2 (zextBytes 2) t addr
  | .loadS16 t addr,      s => m.load n s 2 (sextBytes 2) t addr
  | .load8 t addr,        s => m.load n s 1 (zextBytes 1) t addr
  | .loadS8 t addr,       s => m.load n s 1 (sextBytes 1) t addr
  | .store64 addr value,  s => m.store n s 8 addr value
  | .store32 addr value,  s => m.store n s 4 addr value
  | .store16 addr value,  s => m.store n s 2 addr value
  | .store8 addr value,   s => m.store n s 1 addr value
  | .sext t size op,      s => m.convert n s (sextBytes size.toNat) t op
  | .zext t size op,      s => m.convert n s (zextBytes size.toNat) t op
  | .trunc t size op,     s => m.convert n s (zextBytes size.toNat) t op
  | .bin t op left right, s => do
    let a ← m.operand n s left
    let b ← m.operand n s right
    let value ← m.binary op a b
    return m.set n s t value
  | .cond t condInstrs condOp trueInstrs trueOp falseInstrs falseOp, s => do
    let s₁ ← execs condInstrs s
    let c ← m.operand n s₁ condOp
    if c ≠ 0 then
      let s₂ ← execs trueInstrs s₁
      m.convert n s₂ id t trueOp
    else
      let s₂ ← execs falseInstrs s₁
      m.convert n s₂ id t falseOp
  | .call result name args, s => do
    let values ← args.mapM (m.operand n s)
    let r ← m.callName s.world name values
    return m.returned n s result r
  | .callIndirect result callee args, s => do
    let address ← m.operand n s callee
    let values ← args.mapM (m.operand n s)
    let r ← m.callAddress s.world address values
    return m.returned n s result r

def execs : List Instr → Frame w World → Option (Frame w World)
  | [],              s => some s
  | instr :: instrs, s => do
    let s₁ ← exec instr s
    execs instrs s₁

end

-- The block that a terminator goes to.
def target (s : Frame w World) : Terminator → Option BlockId
  | .ret _                      => none
  | .jump id                    => some id
  | .branch op yes no           => do
    let c ← m.operand n s op
    return if c ≠ 0 then yes else no
  | .branchCmp op left right yes no => do
    let a ← m.operand n s left
    let b ← m.operand n s right
    let c ← m.binary op a b
    return if c ≠ 0 then yes else no

-- The blocks of a function by their ids.
variable (code : BlockId → Option BasicBlock)

def stepBlock (c : BlockId × Frame w World) : Option (BlockId × Frame w World) := do
  let block ← code c.1
  let s ← m.execs n block.instrs c.2
  let id ← m.target n s block.term
  return (id, s)

def Steps : BlockId × Frame w World → BlockId × Frame w World → Prop :=
  Relation.ReflTransGen fun c c' => m.stepBlock n code c = some c'

-- The execution ends in one of the blocks, without going to another block.
def Stuck (blocks : List BasicBlock) (c : BlockId × Frame w World) : Prop :=
  ∃ c', m.Steps n code c c' ∧ (∃ block ∈ blocks, block.id = c'.1) ∧ m.stepBlock n code c' = none

end Machine
end Hcc
