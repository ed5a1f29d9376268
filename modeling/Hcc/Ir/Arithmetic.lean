import Hcc.Ir.Basic
import Hcc.Library.Words

-- The meaning of the binary operators of the IR on machine words.
namespace Hcc

open Words

variable {w : Nat}

def truth (w : Nat) (b : Bool) : BitVec w :=
  if b then 1 else 0

namespace BinOp

def eval : BinOp → (a b : BitVec w) → BitVec w
  | add,  a, b => a + b
  | sub,  a, b => a - b
  | mul,  a, b => a * b
  | div,  a, b => .ofInt w <| a.toInt.tdiv b.toInt
  | mod,  a, b => .ofInt w <| a.toInt.tmod b.toInt
  | udiv, a, b => .ofNat w <| a.toNat / b.toNat
  | umod, a, b => .ofNat w <| a.toNat % b.toNat
  | shl,  a, b => a <<< b.toNat
  | shr,  a, b => a >>> b.toNat
  | sar,  a, b => a.sshiftRight b.toNat
  | eq,   a, b => truth w <| a = b
  | ne,   a, b => truth w <| a ≠ b
  | lt,   a, b => truth w <| a.toInt < b.toInt
  | le,   a, b => truth w <| a.toInt ≤ b.toInt
  | gt,   a, b => truth w <| a.toInt > b.toInt
  | ge,   a, b => truth w <| a.toInt ≥ b.toInt
  | ult,  a, b => truth w <| a.toNat < b.toNat
  | ule,  a, b => truth w <| a.toNat ≤ b.toNat
  | ugt,  a, b => truth w <| a.toNat > b.toNat
  | uge,  a, b => truth w <| a.toNat ≥ b.toNat
  | and,  a, b => a &&& b
  | or,   a, b => a ||| b
  | xor,  a, b => a ^^^ b

-- The operands for which C defines the operator.
def Defined : BinOp → (a b : BitVec w) → Prop
  | div,  a, b
  | mod,  a, b => b ≠ 0 ∧ ¬(a = .intMin w ∧ b = -1)
  | udiv, _, b
  | umod, _, b => b ≠ 0
  | shl,  _, b
  | shr,  _, b
  | sar,  _, b => b.toNat < w
  | _,    _, _ => True

def condition : BinOp → Option Condition
  | eq  => some .eq
  | ne  => some .ne
  | lt  => some .lt
  | le  => some .le
  | gt  => some .gt
  | ge  => some .ge
  | ult => some .ult
  | ule => some .ule
  | ugt => some .ugt
  | uge => some .uge
  | _   => none

def Comparison (op : BinOp) : Prop :=
  op.condition.isSome

end BinOp

-- The extension of the low bytes of a word.
def zextBytes (size : Nat) (x : BitVec w) : BitVec w :=
  zeroExtend (8 * size) x

def sextBytes (size : Nat) (x : BitVec w) : BitVec w :=
  signExtend (8 * size) x

end Hcc
