import Hcc.M1.Arithmetic
import Hcc.Ir.Arithmetic

-- The standard meaning of the mnemonics that `hcc_m1.c` emits for arithmetic and for branches.
namespace Hcc.M1

open Words

def Target.scratch : Target → Reg
  | amd64 | i386 => 3
  | aarch64      => 1
  | riscv64      => 11

inductive AluOp
  | add | sub | mul
  | and | or  | xor
  | shl | shr | sar
  | less (signed : Bool)
  | quot (signed : Bool)
  | rem  (signed : Bool)
deriving DecidableEq, Repr

-- The registers that x86 names are 0 (eax), 1 (ecx), 2 (edx) and 3 (ebx).
inductive Alu
  | move     (dst src : Reg)
  | const    (dst : Reg) (value : Int)
  | exchange (a b : Reg)
  | compute  (op : AluOp) (dst a b : Reg)
  | immediate (op : AluOp) (dst a : Reg) (imm : Int)
  | mulSub   (dst a b minuend : Reg)
  | mulWide  (src : Reg)
  | signWide
  | divWide  (signed : Bool) (src : Reg)
  | compare  (a b : Reg)
  | setByte  (c : Condition)
  | extend   (signed : Bool) (bits : Nat)
deriving DecidableEq, Repr

inductive Step
  | alu    (alu : Alu)
  | insn   (insn : Insn)
  | skip   (c : Condition)
  | jump   (c : Option Condition) (label : String)
  | jumpTo (src : Reg)
  | branch (c : Condition) (a b : Reg) (label : String)
  | mark   (label : String)
deriving DecidableEq, Repr

section Mnemonics

def amd64Mnemonics : List (String × Alu) := [
  ("HCC_M_RAX_RBX",                   .move 3 0),
  ("ADD_rbx_to_rax",                  .compute .add 0 0 3),
  ("SUBTRACT_rax_from_rbx_into_rbx",  .compute .sub 3 3 0),
  ("MOVE_rbx_to_rax",                 .move 0 3),
  ("MULTIPLY_rax_by_rbx_into_rax",    .mulWide 3),
  ("XCHG_rax_rbx",                    .exchange 0 3),
  ("CQTO",                            .signWide),
  ("DIVIDES_rax_by_rbx_into_rax",     .divWide true 3),
  ("MODULUSS_rax_from_rbx_into_rbx",  .divWide true 3),
  ("MOVE_rdx_to_rax",                 .move 0 2),
  ("HCC_XOR_rdx_rdx",                 .compute .xor 2 2 2),
  ("HCC_UDIV_rax_by_rbx_into_rax",    .divWide false 3),
  ("COPY_rax_to_rcx",                 .move 1 0),
  ("HCC_SHL_rax_cl",                  .compute .shl 0 0 1),
  ("HCC_SHR_rax_cl",                  .compute .shr 0 0 1),
  ("HCC_SAR_rax_cl",                  .compute .sar 0 0 1),
  ("CMP",                             .compare 3 0),
  ("SETE",                            .setByte .eq),
  ("SETNE",                           .setByte .ne),
  ("SETL",                            .setByte .lt),
  ("SETLE",                           .setByte .le),
  ("SETG",                            .setByte .gt),
  ("SETGE",                           .setByte .ge),
  ("SETB",                            .setByte .ult),
  ("SETBE",                           .setByte .ule),
  ("SETA",                            .setByte .ugt),
  ("SETAE",                           .setByte .uge),
  ("MOVEZX",                          .extend false 8),
  ("HCC_ZEXT16_RAX",                  .extend false 16),
  ("HCC_ZEXT32_RAX",                  .extend false 32),
  ("HCC_SEXT8_RAX",                   .extend true 8),
  ("HCC_SEXT16_RAX",                  .extend true 16),
  ("HCC_SEXT32_RAX",                  .extend true 32),
  ("AND_rax_rbx",                     .compute .and 0 0 3),
  ("OR_rax_rbx",                      .compute .or 0 0 3),
  ("HCC_XOR_rbx_rax_into_rax",        .compute .xor 0 0 3)]

def i386Mnemonics : List (String × Alu) := [
  ("mov_ebx,eax",  .move 3 0),
  ("add_eax,ebx",  .compute .add 0 0 3),
  ("sub_ebx,eax",  .compute .sub 3 3 0),
  ("mov_eax,ebx",  .move 0 3),
  ("imul_ebx",     .mulWide 3),
  ("xchg_ebx,eax", .exchange 0 3),
  ("cdq",          .signWide),
  ("idiv_ebx",     .divWide true 3),
  ("mov_eax,edx",  .move 0 2),
  ("xor_edx,edx",  .compute .xor 2 2 2),
  ("div_ebx",      .divWide false 3),
  ("mov_ecx,eax",  .move 1 0),
  ("shl_eax,cl",   .compute .shl 0 0 1),
  ("shr_eax,cl",   .compute .shr 0 0 1),
  ("sar_eax,cl",   .compute .sar 0 0 1),
  ("cmp_ebx,eax",  .compare 3 0),
  ("sete_al",      .setByte .eq),
  ("setne_al",     .setByte .ne),
  ("setl_al",      .setByte .lt),
  ("setle_al",     .setByte .le),
  ("setg_al",      .setByte .gt),
  ("setge_al",     .setByte .ge),
  ("setb_al",      .setByte .ult),
  ("setbe_al",     .setByte .ule),
  ("seta_al",      .setByte .ugt),
  ("setae_al",     .setByte .uge),
  ("movzx_eax,al", .extend false 8),
  ("and_eax,ebx",  .compute .and 0 0 3),
  ("or_eax,ebx",   .compute .or 0 0 3),
  ("xor_eax,ebx",  .compute .xor 0 0 3)]

def aarch64Mnemonics : List (String × Alu) := [
  ("SET_X1_FROM_X0",         .move 1 0),
  ("ADD_X0_X1_X0",           .compute .add 0 1 0),
  ("SUB_X0_X1_X0",           .compute .sub 0 1 0),
  ("MUL_X0_X1_X0",           .compute .mul 0 1 0),
  ("SDIV_X0_X1_X0",          .compute (.quot true) 0 1 0),
  ("SDIV_X2_X1_X0",          .compute (.quot true) 2 1 0),
  ("UDIV_X0_X1_X0",          .compute (.quot false) 0 1 0),
  ("UDIV_X2_X1_X0",          .compute (.quot false) 2 1 0),
  ("MSUB_X0_X0_X2_X1",       .mulSub 0 0 2 1),
  ("LSHIFT_X0_X1_X0",        .compute .shl 0 1 0),
  ("LOGICAL_RSHIFT_X0_X1_X0", .compute .shr 0 1 0),
  ("ARITH_RSHIFT_X0_X1_X0",  .compute .sar 0 1 0),
  ("CMP_X1_X0",              .compare 1 0),
  ("SET_X0_TO_0",            .const 0 0),
  ("SET_X0_TO_1",            .const 0 1),
  ("AND_X0_X1_X0",           .compute .and 0 1 0),
  ("OR_X0_X1_X0",            .compute .or 0 1 0),
  ("XOR_X0_X1_X0",           .compute .xor 0 1 0),
  ("UXTW_X0_W0",             .extend false 32),
  ("SXTW_X0_W0",             .extend true 32)]

def riscv64Mnemonics : List (String × Alu) := [
  ("rd_a1 rs1_a0 mv",          .move 11 10),
  ("rd_a0 rs1_a1 rs2_a0 add",  .compute .add 10 11 10),
  ("rd_a0 rs1_a1 rs2_a0 sub",  .compute .sub 10 11 10),
  ("rd_a0 rs1_a1 rs2_a0 mul",  .compute .mul 10 11 10),
  ("rd_a0 rs1_a1 rs2_a0 div",  .compute (.quot true) 10 11 10),
  ("rd_a0 rs1_a1 rs2_a0 rem",  .compute (.rem true) 10 11 10),
  ("rd_a0 rs1_a1 rs2_a0 divu", .compute (.quot false) 10 11 10),
  ("rd_a0 rs1_a1 rs2_a0 remu", .compute (.rem false) 10 11 10),
  ("rd_a0 rs1_a1 rs2_a0 sll",  .compute .shl 10 11 10),
  ("rd_a0 rs1_a1 rs2_a0 srl",  .compute .shr 10 11 10),
  ("rd_a0 rs1_a1 rs2_a0 sra",  .compute .sar 10 11 10),
  ("rd_a0 rs1_a1 rs2_a0 xor",  .compute .xor 10 11 10),
  ("rd_a0 rs1_a0 !1 sltiu",    .immediate (.less false) 10 10 1),
  ("rd_a0 rs1_x0 rs2_a0 sltu", .compute (.less false) 10 0 10),
  ("rd_a0 rs1_a1 rs2_a0 slt",  .compute (.less true) 10 11 10),
  ("rd_a0 rs1_a0 rs2_a1 slt",  .compute (.less true) 10 10 11),
  ("rd_a0 rs1_a1 rs2_a0 sltu", .compute (.less false) 10 11 10),
  ("rd_a0 rs1_a0 rs2_a1 sltu", .compute (.less false) 10 10 11),
  ("rd_a0 rs1_a0 !1 xori",     .immediate .xor 10 10 1),
  ("rd_a0 rs1_a1 rs2_a0 and",  .compute .and 10 11 10),
  ("rd_a0 rs1_a1 rs2_a0 or",   .compute .or 10 11 10)]

def skipMnemonics : List (String × Condition) := [
  ("SKIP_INST_EQ", .eq), ("SKIP_INST_NE", .ne), ("SKIP_INST_LT", .lt), ("SKIP_INST_LE", .le),
  ("SKIP_INST_GT", .gt), ("SKIP_INST_GE", .ge), ("SKIP_INST_LO", .ult), ("SKIP_INST_LS", .ule),
  ("SKIP_INST_HI", .ugt), ("SKIP_INST_HS", .uge)]

def jumpMnemonics : List (String × Condition) := [
  ("HCC_JUMP_EQ", .eq), ("HCC_JUMP_NE", .ne), ("HCC_JUMP_LT", .lt), ("HCC_JUMP_LE", .le),
  ("HCC_JUMP_GT", .gt), ("HCC_JUMP_GE", .ge), ("HCC_JUMP_ULT", .ult), ("HCC_JUMP_ULE", .ule),
  ("HCC_JUMP_UGT", .ugt), ("HCC_JUMP_UGE", .uge)]

def branchMnemonics : List (String × Condition) := [
  ("beq", .eq), ("bne", .ne), ("blt", .lt), ("bge", .ge), ("bltu", .ult), ("bgeu", .uge)]

def branchOperands : List (String × Reg × Reg) := [
  ("rs1_a1 rs2_a0", 11, 10), ("rs1_a0 rs2_a1", 10, 11)]

def decodeText : Target → String → Option Step
  | .amd64,   name => (amd64Mnemonics.lookup name).map .alu
  | .i386,    name => (i386Mnemonics.lookup name).map .alu
  | .aarch64, name =>
    if name = "BR_X16" then some <| .jumpTo 16
    else ((aarch64Mnemonics.lookup name).map .alu).or ((skipMnemonics.lookup name).map .skip)
  | .riscv64, name =>
    if name = "rd_x0 rs1_t2 !0 jalr" then some <| .jumpTo 7 else (riscv64Mnemonics.lookup name).map .alu

def decodeJump : Target → String → Option (Option Condition)
  | .amd64, name => if name = "JUMP" then some none else (jumpMnemonics.lookup name).map some
  | .i386,  name => if name = "jmp" then some none else (jumpMnemonics.lookup name).map some
  | _,      _    => none

def decode (t : Target) : CodeLine → Option Step
  | .text mnemonic                  => decodeText t mnemonic
  | .insn (.call _)                 => none
  | .insn (.callReg _)              => none
  | .insn .ret                      => none
  | .insn insn                      => some <| .insn insn
  | .jump mnemonic label            => do return .jump (← decodeJump t mnemonic) label
  | .branch operands label mnemonic => do
    let (a, b) ← branchOperands.lookup operands
    return .branch (← branchMnemonics.lookup mnemonic) a b label
  | .mark label                     => some <| .mark label

end Mnemonics

-- The flags are known only after a comparison. Instructions that compute are taken to destroy them.
@[ext]
structure Core (t : Target) where
  machine : Machine t
  flags   : Option Flags

section Execution

variable {t : Target}

-- Division by zero does not trap in the instructions with registers for all of their operands.
def AluOp.eval (t : Target) : AluOp → (a b : Word t) → Word t
  | add,        a, b => a + b
  | sub,        a, b => a - b
  | mul,        a, b => a * b
  | and,        a, b => a &&& b
  | or,         a, b => a ||| b
  | xor,        a, b => a ^^^ b
  | shl,        a, b => a <<< (b.toNat % t.bits)
  | shr,        a, b => a >>> (b.toNat % t.bits)
  | sar,        a, b => a.sshiftRight (b.toNat % t.bits)
  | less true,  a, b => if a.toInt < b.toInt then 1 else 0
  | less false, a, b => if a.toNat < b.toNat then 1 else 0
  | quot true,  a, b => if b = 0 then (if t = .riscv64 then -1 else 0) else .ofInt _ (a.toInt.tdiv b.toInt)
  | quot false, a, b => if b = 0 then (if t = .riscv64 then -1 else 0) else .ofNat _ (a.toNat / b.toNat)
  | rem true,   a, b => if b = 0 then a else .ofInt _ (a.toInt.tmod b.toInt)
  | rem false,  a, b => if b = 0 then a else .ofNat _ (a.toNat % b.toNat)

-- The quotient and remainder of a dividend of two words. `none` means that the instruction traps.
def divideWide (signed : Bool) (dividend : BitVec (w + w)) (divisor : BitVec w) :
    Option (BitVec w × BitVec w) :=
  if divisor = 0 then none
  else if signed then
    let quotient := dividend.toInt.tdiv divisor.toInt
    if (BitVec.ofInt w quotient).toInt = quotient then
      some (.ofInt w quotient, .ofInt w (dividend.toInt.tmod divisor.toInt))
    else none
  else
    let quotient := dividend.toNat / divisor.toNat
    if quotient < 2 ^ w then some (.ofNat w quotient, .ofNat w (dividend.toNat % divisor.toNat))
    else none

def Alu.exec (s : Core t) : Alu → Option (Core t)
  | move dst src => some { s with machine := s.machine.set dst (s.machine.get src) }
  | const dst value => some { s with machine := s.machine.set dst (.ofInt _ value) }
  | exchange a b =>
    some { s with machine := (s.machine.set a (s.machine.get b)).set b (s.machine.get a) }
  | compute op dst a b =>
    some ⟨s.machine.set dst (op.eval t (s.machine.get a) (s.machine.get b)), none⟩
  | immediate op dst a imm =>
    some ⟨s.machine.set dst (op.eval t (s.machine.get a) (.ofInt _ imm)), none⟩
  | mulSub dst a b minuend =>
    some ⟨s.machine.set dst (s.machine.get minuend - s.machine.get a * s.machine.get b), none⟩
  | mulWide src =>
    let product := (s.machine.get 0).toInt * (s.machine.get src).toInt
    some ⟨(s.machine.set 0 (.ofInt _ product)).set 2 (.ofInt _ (product / 2 ^ t.bits)), none⟩
  | signWide =>
    some { s with machine := s.machine.set 2 (if (s.machine.get 0).toInt < 0 then -1 else 0) }
  | divWide signed src => do
    let (quotient, remainder) ←
      divideWide signed (s.machine.get 2 ++ s.machine.get 0) (s.machine.get src)
    return ⟨(s.machine.set 0 quotient).set 2 remainder, none⟩
  | compare a b => some { s with flags := some <| .ofSub (s.machine.get a) (s.machine.get b) }
  | setByte c => do
    let byte := if (← s.flags).satisfy c then 1 else 0
    return { s with machine := s.machine.set 0 (s.machine.get 0 >>> 8 <<< 8 ||| byte) }
  | extend signed bits =>
    let value := if signed then signExtend bits (s.machine.get 0) else zeroExtend bits (s.machine.get 0)
    some { s with machine := s.machine.set 0 value }

-- Code falls through to the code behind it or jumps to an address.
inductive Outcome (t : Target)
  | falls (s : Core t)
  | jumps (address : Word t) (s : Core t)

def keepsFlags : Insn → Bool
  | .label .. | .const .. | .move .. => true
  | _                                => false

-- The code behind an instruction that has the size of one word.
def skipStep : List Step → Option (List Step)
  | .alu _ :: rest
  | .jumpTo _ :: rest => some rest
  | _                 => none

theorem length_skipStep (h : skipStep code = some rest) : rest.length < code.length := by
  unfold skipStep at h
  split at h
  case h_3 => contradiction
  all_goals
    cases h
    exact Nat.lt_succ_self _

def runSteps (labels : String → Word t) (s : Core t) : List Step → Option (Outcome t)
  | []                 => some <| .falls s
  | .alu alu :: rest   => do runSteps labels (← alu.exec s) rest
  | .insn insn :: rest =>
    runSteps labels ⟨s.machine.exec labels insn, if keepsFlags insn then s.flags else none⟩ rest
  | .skip c :: rest    => do
    if (← s.flags).satisfy c then
      match _h : skipStep rest with
      | some behind => runSteps labels s behind
      | none        => none
    else runSteps labels s rest
  | .jump none label :: _        => some <| .jumps (labels label) s
  | .jump (some c) label :: rest => do
    if (← s.flags).satisfy c then return .jumps (labels label) s else runSteps labels s rest
  | .jumpTo src :: _             => some <| .jumps (s.machine.get src) s
  | .branch c a b label :: rest  =>
    if c.holds (s.machine.get a) (s.machine.get b) then
      if .mark label ∈ rest then runSteps labels s (rest.dropWhile (· ≠ .mark label)) else none
    else runSteps labels s rest
  | .mark _ :: rest => runSteps labels s rest
termination_by code => code.length
decreasing_by
  all_goals first
    | exact Nat.lt_succ_self _
    | exact Nat.lt_succ_of_lt <| length_skipStep ‹_›
    | exact Nat.lt_succ_of_le (List.dropWhile_sublist _).length_le

def runLines (labels : String → Word t) (s : Core t) (code : List CodeLine) : Option (Outcome t) := do
  runSteps labels s (← code.mapM (decode t))

end Execution
end Hcc.M1
