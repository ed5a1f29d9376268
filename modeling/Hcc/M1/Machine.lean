import Hcc.Library.ByteMemory
import Mathlib.Logic.Function.Basic

open ByteMemory

-- The machines that run the emitted code.
namespace Hcc.M1

inductive Target
  | amd64
  | i386
  | aarch64
  | riscv64
deriving DecidableEq, Repr

-- Registers have the numbers by which they are encoded in instructions.
abbrev Reg := Nat

namespace Target

def wordBytes : Target → Nat
  | i386 => 4
  | _    => 8

def bits (t : Target) : Nat :=
  8 * t.wordBytes

def sp : Target → Reg
  | amd64 | i386 => 4
  | aarch64      => 18
  | riscv64      => 2

-- The register that holds the results of instructions.
def acc : Target → Reg
  | riscv64 => 10
  | _       => 0

-- The register that holds the return address of a call. `none` means that it is pushed.
def link : Target → Option Reg
  | amd64 | i386 => none
  | aarch64      => some 30
  | riscv64      => some 1

end Target

abbrev Word (t : Target) := BitVec t.bits

-- What the emitted instructions do. The sizes of memory accesses are in bytes.
inductive Insn
  | move    (dst src : Reg)
  | add     (dst a b : Reg)
  | addImm  (dst src : Reg) (imm : Int)
  | const   (dst : Reg) (value : Int)
  | label   (dst : Reg) (name : String)
  | load    (size : Nat) (signed : Bool) (dst base : Reg) (offset : Int)
  | store   (size : Nat) (src base : Reg) (offset : Int)
  | push    (src : Reg)
  | pop     (dst : Reg)
  | call    (name : String)
  | callReg (src : Reg)
  | ret
deriving DecidableEq, Repr

@[ext]
structure Machine (t : Target) where
  regs : Reg → Word t
  mem  : Memory t.bits

namespace Machine

variable {t : Target}

-- One of the registers is always zero on RISC-V.
def get (m : Machine t) (r : Reg) : Word t :=
  if t = .riscv64 ∧ r = 0 then 0 else m.regs r

def set (m : Machine t) (r : Reg) (v : Word t) : Machine t where
  regs := Function.update m.regs r v
  mem  := m.mem

def load (m : Machine t) (size : Nat) (signed : Bool) (a : Word t) : Word t :=
  if signed then (BitVec.ofNat (8 * size) (read m.mem a size)).signExtend _
  else .ofNat _ (read m.mem a size)

def store (m : Machine t) (size : Nat) (a v : Word t) : Machine t where
  regs := m.regs
  mem  := write m.mem a size v.toNat

def push (m : Machine t) (v : Word t) : Machine t :=
  let a := m.get t.sp - .ofNat _ t.wordBytes
  (m.store t.wordBytes a v).set t.sp a

section

variable (labels : String → Word t)

-- The effect of an instruction other than a call.
def exec (m : Machine t) : Insn → Machine t
  | .move dst src                    => m.set dst (m.get src)
  | .add dst a b                     => m.set dst (m.get a + m.get b)
  | .addImm dst src imm              => m.set dst (m.get src + .ofInt _ imm)
  | .const dst value                 => m.set dst (.ofInt _ value)
  | .label dst name                  => m.set dst (labels name)
  | .load size signed dst base off   => m.set dst (m.load size signed (m.get base + .ofInt _ off))
  | .store size src base off         => m.store size (m.get base + .ofInt _ off) (m.get src)
  | .push src                        => m.push (m.get src)
  | .pop dst                         =>
    (m.set dst (m.load t.wordBytes false (m.get t.sp))).set t.sp (m.get t.sp + .ofNat _ t.wordBytes)
  | .ret                             =>
    if t.link = none then m.set t.sp (m.get t.sp + .ofNat _ t.wordBytes) else m
  | .call _ | .callReg _             => m

def run (m : Machine t) (code : List Insn) : Machine t :=
  code.foldl (exec labels) m

-- The state at the first call, the address that is called, and the code after the call.
def runToCall (m : Machine t) : List Insn → Option (Machine t × Word t × List Insn)
  | []                   => none
  | .call name :: rest   => some (m, labels name, rest)
  | .callReg src :: rest => some (m, m.get src, rest)
  | insn :: rest         => runToCall (m.exec labels insn) rest

end

-- The state after a call that returns to the given address.
def enter (m : Machine t) (address : Word t) : Machine t :=
  match t.link with
  | none   => m.push address
  | some r => m.set r address

end Machine
end Hcc.M1
