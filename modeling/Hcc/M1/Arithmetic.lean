import Hcc.Ir.Text
import Hcc.M1.Emit

-- The emission of arithmetic, extensions and comparisons in `hcc_m1.c`, and the meaning of its mnemonics.
namespace Hcc.M1

-- The mnemonics that a line can start with are kept as they are printed.
inductive CodeLine
  | text   (mnemonic : String)
  | insn   (insn : Insn)
  | jump   (mnemonic label : String)
  | branch (operands label mnemonic : String)
  | mark   (label : String)
deriving DecidableEq, Repr

section Emission

variable (t : Target)

def aarch64EmitBinop : BinOp → List String
  | .add  => ["ADD_X0_X1_X0"]
  | .sub  => ["SUB_X0_X1_X0"]
  | .mul  => ["MUL_X0_X1_X0"]
  | .div  => ["SDIV_X0_X1_X0"]
  | .mod  => ["SDIV_X2_X1_X0", "MSUB_X0_X0_X2_X1"]
  | .shl  => ["LSHIFT_X0_X1_X0"]
  | .shr  => ["LOGICAL_RSHIFT_X0_X1_X0"]
  | .sar  => ["ARITH_RSHIFT_X0_X1_X0"]
  | .eq   => ["CMP_X1_X0", "SET_X0_TO_1", "SKIP_INST_EQ", "SET_X0_TO_0"]
  | .ne   => ["CMP_X1_X0", "SET_X0_TO_1", "SKIP_INST_NE", "SET_X0_TO_0"]
  | .lt   => ["CMP_X1_X0", "SET_X0_TO_1", "SKIP_INST_LT", "SET_X0_TO_0"]
  | .le   => ["CMP_X1_X0", "SET_X0_TO_1", "SKIP_INST_LE", "SET_X0_TO_0"]
  | .gt   => ["CMP_X1_X0", "SET_X0_TO_1", "SKIP_INST_GT", "SET_X0_TO_0"]
  | .ge   => ["CMP_X1_X0", "SET_X0_TO_1", "SKIP_INST_GE", "SET_X0_TO_0"]
  | .ult  => ["CMP_X1_X0", "SET_X0_TO_1", "SKIP_INST_LO", "SET_X0_TO_0"]
  | .ule  => ["CMP_X1_X0", "SET_X0_TO_1", "SKIP_INST_LS", "SET_X0_TO_0"]
  | .ugt  => ["CMP_X1_X0", "SET_X0_TO_1", "SKIP_INST_HI", "SET_X0_TO_0"]
  | .uge  => ["CMP_X1_X0", "SET_X0_TO_1", "SKIP_INST_HS", "SET_X0_TO_0"]
  | .and  => ["AND_X0_X1_X0"]
  | .or   => ["OR_X0_X1_X0"]
  | .xor  => ["XOR_X0_X1_X0"]
  | .udiv => ["UDIV_X0_X1_X0"]
  | .umod => ["UDIV_X2_X1_X0", "MSUB_X0_X0_X2_X1"]

def riscv64EmitBinop : BinOp → List String
  | .add  => ["rd_a0 rs1_a1 rs2_a0 add"]
  | .sub  => ["rd_a0 rs1_a1 rs2_a0 sub"]
  | .mul  => ["rd_a0 rs1_a1 rs2_a0 mul"]
  | .div  => ["rd_a0 rs1_a1 rs2_a0 div"]
  | .mod  => ["rd_a0 rs1_a1 rs2_a0 rem"]
  | .udiv => ["rd_a0 rs1_a1 rs2_a0 divu"]
  | .umod => ["rd_a0 rs1_a1 rs2_a0 remu"]
  | .shl  => ["rd_a0 rs1_a1 rs2_a0 sll"]
  | .shr  => ["rd_a0 rs1_a1 rs2_a0 srl"]
  | .sar  => ["rd_a0 rs1_a1 rs2_a0 sra"]
  | .eq   => ["rd_a0 rs1_a1 rs2_a0 xor", "rd_a0 rs1_a0 !1 sltiu"]
  | .ne   => ["rd_a0 rs1_a1 rs2_a0 xor", "rd_a0 rs1_x0 rs2_a0 sltu"]
  | .lt   => ["rd_a0 rs1_a1 rs2_a0 slt"]
  | .le   => ["rd_a0 rs1_a0 rs2_a1 slt", "rd_a0 rs1_a0 !1 xori"]
  | .gt   => ["rd_a0 rs1_a0 rs2_a1 slt"]
  | .ge   => ["rd_a0 rs1_a1 rs2_a0 slt", "rd_a0 rs1_a0 !1 xori"]
  | .ult  => ["rd_a0 rs1_a1 rs2_a0 sltu"]
  | .ule  => ["rd_a0 rs1_a0 rs2_a1 sltu", "rd_a0 rs1_a0 !1 xori"]
  | .ugt  => ["rd_a0 rs1_a0 rs2_a1 sltu"]
  | .uge  => ["rd_a0 rs1_a1 rs2_a0 sltu", "rd_a0 rs1_a0 !1 xori"]
  | .and  => ["rd_a0 rs1_a1 rs2_a0 and"]
  | .or   => ["rd_a0 rs1_a1 rs2_a0 or"]
  | .xor  => ["rd_a0 rs1_a1 rs2_a0 xor"]

def i386EmitBinop : BinOp → List String
  | .add  => ["add_eax,ebx"]
  | .sub  => ["sub_ebx,eax", "mov_eax,ebx"]
  | .mul  => ["imul_ebx"]
  | .div  => ["xchg_ebx,eax", "cdq", "idiv_ebx"]
  | .mod  => ["xchg_ebx,eax", "cdq", "idiv_ebx", "mov_eax,edx"]
  | .udiv => ["xchg_ebx,eax", "xor_edx,edx", "div_ebx"]
  | .umod => ["xchg_ebx,eax", "xor_edx,edx", "div_ebx", "mov_eax,edx"]
  | .shl  => ["mov_ecx,eax", "mov_eax,ebx", "shl_eax,cl"]
  | .shr  => ["mov_ecx,eax", "mov_eax,ebx", "shr_eax,cl"]
  | .sar  => ["mov_ecx,eax", "mov_eax,ebx", "sar_eax,cl"]
  | .eq   => ["cmp_ebx,eax", "sete_al", "movzx_eax,al"]
  | .ne   => ["cmp_ebx,eax", "setne_al", "movzx_eax,al"]
  | .lt   => ["cmp_ebx,eax", "setl_al", "movzx_eax,al"]
  | .le   => ["cmp_ebx,eax", "setle_al", "movzx_eax,al"]
  | .gt   => ["cmp_ebx,eax", "setg_al", "movzx_eax,al"]
  | .ge   => ["cmp_ebx,eax", "setge_al", "movzx_eax,al"]
  | .ult  => ["cmp_ebx,eax", "setb_al", "movzx_eax,al"]
  | .ule  => ["cmp_ebx,eax", "setbe_al", "movzx_eax,al"]
  | .ugt  => ["cmp_ebx,eax", "seta_al", "movzx_eax,al"]
  | .uge  => ["cmp_ebx,eax", "setae_al", "movzx_eax,al"]
  | .and  => ["and_eax,ebx"]
  | .or   => ["or_eax,ebx"]
  | .xor  => ["xor_eax,ebx"]

def amd64EmitBinop : BinOp → List String
  | .add  => ["ADD_rbx_to_rax"]
  | .sub  => ["SUBTRACT_rax_from_rbx_into_rbx", "MOVE_rbx_to_rax"]
  | .mul  => ["MULTIPLY_rax_by_rbx_into_rax"]
  | .div  => ["XCHG_rax_rbx", "CQTO", "DIVIDES_rax_by_rbx_into_rax"]
  | .mod  => ["XCHG_rax_rbx", "CQTO", "MODULUSS_rax_from_rbx_into_rbx", "MOVE_rdx_to_rax"]
  | .udiv => ["XCHG_rax_rbx", "HCC_XOR_rdx_rdx", "HCC_UDIV_rax_by_rbx_into_rax"]
  | .umod => ["XCHG_rax_rbx", "HCC_XOR_rdx_rdx", "HCC_UDIV_rax_by_rbx_into_rax", "MOVE_rdx_to_rax"]
  | .shl  => ["COPY_rax_to_rcx", "MOVE_rbx_to_rax", "HCC_SHL_rax_cl"]
  | .shr  => ["COPY_rax_to_rcx", "MOVE_rbx_to_rax", "HCC_SHR_rax_cl"]
  | .sar  => ["COPY_rax_to_rcx", "MOVE_rbx_to_rax", "HCC_SAR_rax_cl"]
  | .eq   => ["CMP", "SETE", "MOVEZX"]
  | .ne   => ["CMP", "SETNE", "MOVEZX"]
  | .lt   => ["CMP", "SETL", "MOVEZX"]
  | .le   => ["CMP", "SETLE", "MOVEZX"]
  | .gt   => ["CMP", "SETG", "MOVEZX"]
  | .ge   => ["CMP", "SETGE", "MOVEZX"]
  | .ult  => ["CMP", "SETB", "MOVEZX"]
  | .ule  => ["CMP", "SETBE", "MOVEZX"]
  | .ugt  => ["CMP", "SETA", "MOVEZX"]
  | .uge  => ["CMP", "SETAE", "MOVEZX"]
  | .and  => ["AND_rax_rbx"]
  | .or   => ["OR_rax_rbx"]
  | .xor  => ["HCC_XOR_rbx_rax_into_rax"]

def emitBinopLines (op : BinOp) : List CodeLine :=
  List.map .text <| match t with
    | .i386    => i386EmitBinop op
    | .aarch64 => aarch64EmitBinop op
    | .riscv64 => riscv64EmitBinop op
    | .amd64   => amd64EmitBinop op

def maskForSize (size : Nat) : Int :=
  if size ≤ 1 then 255
  else if size ≤ 2 then 65535
  else if size ≤ 4 then 4294967295
  else -1

def signBitForSize (size : Nat) : Int :=
  if size ≤ 1 then 128
  else if size ≤ 2 then 32768
  else 2147483648

def emitCopyAccToScratch : List CodeLine :=
  [.text <| match t with
    | .i386    => "mov_ebx,eax"
    | .aarch64 => "SET_X1_FROM_X0"
    | .riscv64 => "rd_a1 rs1_a0 mv"
    | .amd64   => "HCC_M_RAX_RBX"]

-- The operator for the accumulator and the immediate.
def emitBinopImmediate (op : BinOp) (value : Int) : List CodeLine :=
  emitCopyAccToScratch t ++ (emitLoadImmediate t value).map .insn ++ emitBinopLines t op

def emitMask (size : Nat) : List CodeLine :=
  emitBinopImmediate t .and (maskForSize size)

def emitMaskSext (size : Nat) : List CodeLine :=
  emitMask t size ++ emitBinopImmediate t .xor (signBitForSize size) ++
    emitBinopImmediate t .sub (signBitForSize size)

def emitZextLoadedAcc (size : Nat) : List CodeLine :=
  match t with
  | .i386    => if size ≥ 4 then [] else emitMask t size
  | .amd64   =>
    if size ≤ 1 then [.text "MOVEZX"]
    else if size ≤ 2 then [.text "HCC_ZEXT16_RAX"]
    else if size ≤ 4 then [.text "HCC_ZEXT32_RAX"]
    else []
  | .aarch64 =>
    if size = 4 then [.text "UXTW_X0_W0"]
    else if size < 8 then emitMask t size
    else []
  | .riscv64 => if size < 8 then emitMask t size else []

def emitSextLoadedAcc (size : Nat) : List CodeLine :=
  match t with
  | .i386    => if size ≥ 4 then [] else emitMaskSext t size
  | .amd64   =>
    if size ≤ 1 then [.text "HCC_SEXT8_RAX"]
    else if size ≤ 2 then [.text "HCC_SEXT16_RAX"]
    else if size ≤ 4 then [.text "HCC_SEXT32_RAX"]
    else []
  | .aarch64 =>
    if size = 4 then [.text "SXTW_X0_W0"]
    else if size < 8 then emitMaskSext t size
    else []
  | .riscv64 => if size < 8 then emitMaskSext t size else []

-- The comparison of the operands that `emit_compare` has loaded.
def emitCompareLines : List CodeLine :=
  match t with
  | .i386    => [.text "cmp_ebx,eax"]
  | .aarch64 => [.text "CMP_X1_X0"]
  | .riscv64 => []
  | .amd64   => [.text "CMP"]

def invertComparison : BinOp → Except String BinOp
  | .eq  => .ok .ne
  | .ne  => .ok .eq
  | .lt  => .ok .ge
  | .le  => .ok .gt
  | .gt  => .ok .le
  | .ge  => .ok .lt
  | .ult => .ok .uge
  | .ule => .ok .ugt
  | .ugt => .ok .ule
  | .uge => .ok .ult
  | _    => .error "cannot invert branch comparison"

def jumpNameForBinop : BinOp → Except String String
  | .eq  => .ok "HCC_JUMP_EQ"
  | .ne  => .ok "HCC_JUMP_NE"
  | .lt  => .ok "HCC_JUMP_LT"
  | .le  => .ok "HCC_JUMP_LE"
  | .gt  => .ok "HCC_JUMP_GT"
  | .ge  => .ok "HCC_JUMP_GE"
  | .ult => .ok "HCC_JUMP_ULT"
  | .ule => .ok "HCC_JUMP_ULE"
  | .ugt => .ok "HCC_JUMP_UGT"
  | .uge => .ok "HCC_JUMP_UGE"
  | _    => .error "bad branch comparison"

def aarch64SkipNameForBinop : BinOp → Except String String
  | .eq  => .ok "SKIP_INST_EQ"
  | .ne  => .ok "SKIP_INST_NE"
  | .lt  => .ok "SKIP_INST_LT"
  | .le  => .ok "SKIP_INST_LE"
  | .gt  => .ok "SKIP_INST_GT"
  | .ge  => .ok "SKIP_INST_GE"
  | .ult => .ok "SKIP_INST_LO"
  | .ule => .ok "SKIP_INST_LS"
  | .ugt => .ok "SKIP_INST_HI"
  | .uge => .ok "SKIP_INST_HS"
  | _    => .error "bad AArch64 branch comparison"

def riscv64FalseBranchKind : BinOp → Except String Nat
  | .eq        => .ok 2
  | .ne        => .ok 1
  | .lt | .gt   => .ok 4
  | .le | .ge   => .ok 3
  | .ult | .ugt => .ok 6
  | .ule | .uge => .ok 5
  | _          => .error "bad riscv64 branch comparison"

def riscv64FalseBranchSwapsArgsForBinop (op : BinOp) : Bool :=
  op ∈ [.le, .gt, .ule, .ugt]

def riscv64BranchOp : Nat → Except String String
  | 1 => .ok "beq"
  | 2 => .ok "bne"
  | 3 => .ok "blt"
  | 4 => .ok "bge"
  | 5 => .ok "bltu"
  | 6 => .ok "bgeu"
  | _ => .error "bad riscv64 branch opcode"

def aarch64EmitJumpLabelParts (label : String) : List CodeLine :=
  [.insn (.label 16 label), .text "BR_X16"]

def riscv64EmitJumpLabelParts (label : String) : List CodeLine :=
  [.insn (.label 7 label), .text "rd_x0 rs1_t2 !0 jalr"]

def aarch64EmitCompareJump (op : BinOp) (target : String) : Except String (List CodeLine) := do
  return [.insn (.label 16 target), .text (← aarch64SkipNameForBinop (← invertComparison op)),
    .text "BR_X16"]

-- `skip` is a fresh local label.
def riscv64EmitCompareJump (skip : String) (op : BinOp) (target : String) : Except String (List CodeLine) := do
  let kind ← riscv64FalseBranchKind op
  let operands := if riscv64FalseBranchSwapsArgsForBinop op then "rs1_a0 rs2_a1" else "rs1_a1 rs2_a0"
  return .branch operands skip (← riscv64BranchOp kind) :: riscv64EmitJumpLabelParts target ++ [.mark skip]

variable (skip : String)

def emitJumpNamed (target : String) : List CodeLine :=
  match t with
  | .amd64   => [.jump "JUMP" target]
  | .i386    => [.jump "jmp" target]
  | .aarch64 => aarch64EmitJumpLabelParts target
  | .riscv64 => riscv64EmitJumpLabelParts target

def emitCompareJumpLines (op : BinOp) (target : String) : Except String (List CodeLine) :=
  match t with
  | .aarch64 => aarch64EmitCompareJump op target
  | .riscv64 => riscv64EmitCompareJump skip op target
  | _        => do return [.jump (← jumpNameForBinop op) target]

-- The label of a block of the function.
def blockRef (fn : String) (id : Int) : String :=
  "HCC_BLOCK_" ++ fn ++ "_" ++ toString id

def emitCompareBranchLines (fn : String) (op : BinOp) (yes no nextId : Int) : Except String (List CodeLine) := do
  if nextId = yes then emitCompareJumpLines t skip (← invertComparison op) (blockRef fn no)
  else if nextId = no then emitCompareJumpLines t skip op (blockRef fn yes)
  else return (← emitCompareJumpLines t skip op (blockRef fn yes)) ++ emitJumpNamed t (blockRef fn no)

end Emission
end Hcc.M1
