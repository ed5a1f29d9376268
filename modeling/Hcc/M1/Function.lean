import Hcc.M1.Frame

-- The emission of functions in `hcc_m1.c`, as far as it depends on the locations of temps and can end with an
-- error. The lines that are written are those of the calls and parameters, the others are left out.
namespace Hcc.M1

open CInteger

def IK_ADDROF : Int := 6
def IK_BIN : Int := 18

def BK_ADD : Int := 1

-- The temp that an instruction defines, or -1.
def instrDefTemp (fields : Fields) : Int :=
  if fields.kind ∈ [1, 3, 5, 6, 7, 8, 9, 10, 11, 12, 13, 18, 22, 23, 24] then fields.temp
  else if fields.kind = IK_CALL ∨ fields.kind = IK_CALLI then fields.result
  else -1

section Uses

variable (locs : LocArray)

abbrev Uses := Int → Nat

def countTempUse (uses : Uses) (temp : Int) : Except String Uses := do
  let _ ← lookupLoc locs temp
  return Function.update uses temp (uses temp + 1)

def countOperandUse (uses : Uses) (op : Operand) : Except String Uses :=
  if op.kind ≠ OP_TEMP then .ok uses else countTempUse locs uses op.value

mutual

def countInstrUse (uses : Uses) : Instr → Except String Uses
  | .mk fields condInstrs trueInstrs falseInstrs condOp trueOp falseOp =>
    if fields.kind ∈ [5, 7, 8, 9, 10, 11, 12, 13, 22, 23, 24] then countOperandUse locs uses fields.a
    else if fields.kind = IK_ADDROF then countTempUse locs uses fields.temp2
    else if fields.kind ∈ [14, 15, 16, 17, 18] then do
      let uses ← countOperandUse locs uses fields.a
      countOperandUse locs uses fields.b
    else if fields.kind = IK_CALL then fields.args.foldlM (countOperandUse locs) uses
    else if fields.kind = IK_CALLI then do
      let uses ← countOperandUse locs uses fields.callee
      fields.args.foldlM (countOperandUse locs) uses
    else if fields.kind = IK_COND then do
      let uses ← countInstrUses uses condInstrs
      let uses ← countOperandUse locs uses condOp
      let uses ← countInstrUses uses trueInstrs
      let uses ← countOperandUse locs uses trueOp
      let uses ← countInstrUses uses falseInstrs
      countOperandUse locs uses falseOp
    else .ok uses

def countInstrUses (uses : Uses) : List Instr → Except String Uses
  | []              => .ok uses
  | instr :: instrs => do
    let uses ← countInstrUse uses instr
    countInstrUses uses instrs

end

def countBlockUses (uses : Uses) (block : Block) : Except String Uses := do
  let uses ← countInstrUses locs uses block.instrs
  if block.termKind = TK_RET ∨ block.termKind = TK_BRANCH then countOperandUse locs uses block.termOp
  else if block.termKind = TK_BRANCH_CMP then
    let uses ← countOperandUse locs uses block.termOp
    countOperandUse locs uses block.termB
  else return uses

def countFunctionUses (fn : Function) : Except String Uses :=
  fn.blocks.foldlM (countBlockUses locs) fun _ => 0

end Uses

section Branches

variable (t : Target)

def invertBinop : Int → Except String Int
  | 9  => .ok 10
  | 10 => .ok 9
  | 11 => .ok 14
  | 12 => .ok 13
  | 13 => .ok 12
  | 14 => .ok 11
  | 15 => .ok 18
  | 16 => .ok 17
  | 17 => .ok 16
  | 18 => .ok 15
  | _  => .error "cannot invert branch comparison"

def emitCompareJump (op : Int) : Except String Unit :=
  match t with
  | .aarch64 => do
    let _ ← invertBinop op
    return ()
  | .riscv64 => if 9 ≤ op ∧ op ≤ 18 then .ok () else .error "bad riscv64 branch comparison"
  | _        => if 9 ≤ op ∧ op ≤ 18 then .ok () else .error "bad branch comparison"

def emitCompareBranch (op yes nextId : Int) : Except String Unit := do
  if nextId = yes then emitCompareJump t (← invertBinop op) else emitCompareJump t op

def emitBinop (op : Int) : Except String Unit :=
  if t = .riscv64 ∧ ¬(1 ≤ op ∧ op ≤ 23) then .error "bad riscv64 binary operation" else .ok ()

def binopIsCommutative (op : Int) : Bool :=
  op ∈ [1, 3, 9, 10, 19, 20, 21]

end Branches

section Emission

variable (t : Target) (locs : LocArray)

def emitLoad (op : Operand) (state : EmitState) : Except String EmitState :=
  Prod.snd <$> emitLoadOperand t locs 0 op state

def emitStore (temp : Int) (state : EmitState) : Except String EmitState :=
  Prod.snd <$> emitStoreTemp t locs temp state

def emitAddressOf (temp : Int) (state : EmitState) : Except String EmitState := do
  let _ ← lookupLoc locs temp
  return emitForgetRax state

def emitCompare (a b : Operand) (state : EmitState) : Except String EmitState := do
  if t = .amd64 ∧ b.kind = OP_TEMP ∧ b.value = state.raxTemp then
    return emitForgetRax (← emitLoad t locs a state)
  else
    let state ← emitLoad t locs a state
    emitLoad t locs b state

-- The extensions of the accumulator.
def emitExtension (fields : Fields) (state : EmitState) : Except String EmitState := do
  let state ← emitLoad t locs fields.a state
  emitStore t locs fields.temp (emitForgetRax state)

def emitMemoryLoad (fields : Fields) (width : Nat) (state : EmitState) : Except String EmitState := do
  if width = 8 ∧ t = .i386 then throw "i386 M1 backend cannot lower 64-bit load"
  let state ← emitLoad t locs fields.a state
  emitStore t locs fields.temp state

def emitMemoryStore (fields : Fields) (width : Nat) (state : EmitState) : Except String EmitState := do
  if width = 8 ∧ t = .i386 then throw "i386 M1 backend cannot lower 64-bit store"
  let state ← emitLoad t locs fields.a state
  emitLoad t locs fields.b state

-- An immediate is added by one instruction. Otherwise, an operand that is in the accumulator is preferred as the
-- left one. The operands `a` and `b` are exchanged if `exchanged` holds.
def emitBin (fields : Fields) (state : EmitState) : Except String EmitState := do
  let adds : Bool := t = .amd64 ∧ fields.binop = BK_ADD
  let exchanged : Bool := adds ∧ fields.a.kind = OP_IMM ∧ fields.b.kind ≠ OP_IMM
  let left := if exchanged then fields.b else fields.a
  let right := if exchanged then fields.a else fields.b
  if adds ∧ right.kind = OP_IMM ∧ right.value ≥ -2147483648 ∧ right.value ≤ 2147483647 then
    let state ← emitLoad t locs left state
    emitStore t locs fields.temp (emitForgetRax state)
  else
    let swapped : Bool :=
      binopIsCommutative fields.binop ∧ right.kind = OP_TEMP ∧ right.value = state.raxTemp
    let left := if swapped then fields.b else left
    let right := if swapped then fields.a else right
    let state ← (if t = .amd64 ∧ right.kind = OP_TEMP ∧ right.value = state.raxTemp ∧
        ¬(exchanged ∨ swapped) then do
      return emitForgetRax (← emitLoad t locs left state)
    else do
      let state ← emitLoad t locs left state
      emitLoad t locs right state : Except String EmitState)
    emitBinop t fields.binop
    emitStore t locs fields.temp state

-- The temp of an operand, or -1.
def operandTemp (op : Operand) : Int :=
  if op.kind = OP_TEMP then op.value else -1

def instrConsumesRaxTemp (fields : Fields) (temp : Int) : Bool :=
  if fields.kind ∈ [5, 7, 8, 9, 10, 11, 12, 13, 22, 23, 24, 14, 15, 16, 17, 18] then
    (fields.a.kind = OP_TEMP && fields.a.value = temp) ||
      (fields.kind = IK_BIN && binopIsCommutative fields.binop &&
        fields.b.kind = OP_TEMP && fields.b.value = temp)
  else if fields.kind = IK_CALL ∨ fields.kind = IK_CALLI then callConsumesRaxTemp t fields.args temp
  else false

variable (uses : Uses) (totalSlots : Int)

-- The temp that is only used by the next instruction or by the code behind the instructions.
def omittedStoreTemp (finalTemp : Int) (fields : Fields) (rest : List Instr) : Except String Int := do
  let temp := instrDefTemp fields
  match rest with
  | .mk next _ _ _ _ _ _ :: _ =>
    if temp ≥ 0 then
      let _ ← lookupLoc locs temp
      return if uses temp = 1 ∧ instrConsumesRaxTemp t next temp then temp else -1
    else return -1
  | []                         =>
    if temp ≥ 0 ∧ temp = finalTemp then
      let _ ← lookupLoc locs temp
      return if uses temp = 1 then temp else -1
    else return -1

-- The instructions without nested ones.
def emitSimpleInstr (fields : Fields) (state : EmitState) : Except String EmitState :=
  match fields.kind with
  | 1  => Prod.snd <$> emitParam t locs totalSlots fields.temp fields.value state
  | 3  => emitStore t locs fields.temp (emitForgetRax state)
  | 5  => do
    let state ← emitLoad t locs fields.a state
    emitStore t locs fields.temp state
  | 6  => do
    let state ← emitAddressOf locs fields.temp2 state
    emitStore t locs fields.temp state
  | 7  => emitMemoryLoad t locs fields 8 state
  | 8  => emitMemoryLoad t locs fields 4 state
  | 9  => emitMemoryLoad t locs fields 4 state
  | 10 => emitMemoryLoad t locs fields 2 state
  | 11 => emitMemoryLoad t locs fields 2 state
  | 12 => emitMemoryLoad t locs fields 1 state
  | 13 => emitMemoryLoad t locs fields 1 state
  | 14 => emitMemoryStore t locs fields 8 state
  | 15 => emitMemoryStore t locs fields 4 state
  | 16 => emitMemoryStore t locs fields 2 state
  | 17 => emitMemoryStore t locs fields 1 state
  | 18 => emitBin t locs fields state
  | 19 => Prod.snd <$> emitCall t locs (fields.name.getD "") fields.args fields.result state
  | 20 => Prod.snd <$> emitCalli t locs fields.callee fields.args fields.result state
  | 22 => emitExtension t locs fields state
  | 23 => emitExtension t locs fields state
  | 24 => emitExtension t locs fields state
  | _  => .ok state

mutual

def emitInstr (state : EmitState) : Instr → Except String EmitState
  | .mk fields condInstrs trueInstrs falseInstrs condOp trueOp falseOp =>
    if fields.kind = IK_COND then do
      let state ← emitInstrs (operandTemp condOp) state condInstrs
      let state ← emitLoad t locs condOp state
      let state ← emitInstrs (operandTemp trueOp) (emitForgetRax state) trueInstrs
      let state ← emitLoad t locs trueOp state
      let state ← emitStore t locs fields.temp state
      let state ← emitInstrs (operandTemp falseOp) (emitForgetRax state) falseInstrs
      let state ← emitLoad t locs falseOp state
      let state ← emitStore t locs fields.temp state
      return emitForgetRax state
    else emitSimpleInstr t locs totalSlots fields state

def emitInstrs (finalTemp : Int) (state : EmitState) : List Instr → Except String EmitState
  | []                                                                            => .ok state
  | .mk fields condInstrs trueInstrs falseInstrs condOp trueOp falseOp :: instrs  => do
    let omitStoreTemp ← omittedStoreTemp t locs uses finalTemp fields instrs
    let state ← emitInstr { state with omitStoreTemp }
      (.mk fields condInstrs trueInstrs falseInstrs condOp trueOp falseOp)
    emitInstrs finalTemp { state with omitStoreTemp := -1 } instrs

end

def emitTerminator (nextId : Int) (block : Block) (state : EmitState) : Except String EmitState := do
  let state ← (if block.termKind = TK_RET then
      if block.termOp.kind = 0 then .ok (emitForgetRax state) else emitLoad t locs block.termOp state
    else if block.termKind = TK_BRANCH then emitLoad t locs block.termOp state
    else if block.termKind = TK_BRANCH_CMP then do
      let state ← emitCompare t locs block.termOp block.termB state
      emitCompareBranch t block.termBinop block.yes nextId
      return state
    else .ok state : Except String EmitState)
  return emitForgetRax state

def blockFirstTermTemp (block : Block) : Int :=
  if (block.termKind = TK_RET ∨ block.termKind = TK_BRANCH) ∧ block.termOp.kind = OP_TEMP then
    block.termOp.value
  else if block.termKind = TK_BRANCH_CMP then
    let finalDef := match block.instrs.getLast? with
      | some (.mk fields _ _ _ _ _ _) => instrDefTemp fields
      | none                          => -1
    if block.termOp.kind = OP_TEMP ∧ block.termOp.value = finalDef then finalDef
    else if t = .amd64 ∧ block.termB.kind = OP_TEMP ∧ block.termB.value = finalDef then finalDef
    else -1
  else -1

def emitBlocks (state : EmitState) : List Block → Except String EmitState
  | []              => .ok state
  | block :: blocks => do
    let termTemp := blockFirstTermTemp t block
    let state := if block.id ≠ 0 then emitForgetRax state else state
    let state ← emitInstrs t locs uses totalSlots termTemp state block.instrs
    let nextId := match blocks with
      | []        => -1
      | next :: _ => next.id
    let state ← emitTerminator t locs nextId block state
    emitBlocks state blocks

def emitFunction (fn : Function) : Except String EmitState := do
  let fr := Frame.allocFunction t fn
  let uses ← countFunctionUses fr.locs fn
  emitBlocks t fr.locs uses fr.totalSlots {} fn.blocks

end Emission
end Hcc.M1
