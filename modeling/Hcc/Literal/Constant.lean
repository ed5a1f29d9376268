import Hcc.Library.CInteger
import Hcc.Library.Digits
import Hcc.Literal.Basic

open CInteger

namespace Hcc

-- The C operators by their spelling.
def binaryOp? : String → Option BinaryOp
  | "+"  => some .add
  | "-"  => some .sub
  | "*"  => some .mul
  | "/"  => some .div
  | "%"  => some .mod
  | "<<" => some .shl
  | ">>" => some .shr
  | "==" => some .eq
  | "!=" => some .ne
  | "<"  => some .lt
  | "<=" => some .le
  | ">"  => some .gt
  | ">=" => some .ge
  | "&"  => some .and
  | "|"  => some .or
  | "^"  => some .xor
  | "&&" => some .logicalAnd
  | "||" => some .logicalOr
  | _    => none

def unaryOp? : String → Option UnaryOp
  | "-" => some .neg
  | "~" => some .compl
  | _   => none

namespace Constant

def type (c : Constant) : IntType where
  size     := c.size
  unsigned := c.unsigned

def value (c : Constant) : Int :=
  c.type.wrap (Digits.value 256 c.bytes)

structure WellFormed (c : Constant) : Prop where
  length : c.bytes.length = c.size
  proper : Digits.Proper 256 c.bytes

-- The types `int` and `long`, and their unsigned counterparts.
def Standard (c : Constant) : Prop :=
  c.size = 4 ∨ c.size = 8

-- `c` is the representation of the mathematical value `x` in type `t`.
structure Represents (c : Constant) (t : IntType) (x : Int) : Prop where
  wellFormed : c.WellFormed
  type       : c.type = t
  value      : c.value = t.wrap x

instance {c : Constant} : Decidable c.WellFormed :=
  decidable_of_iff (c.bytes.length = c.size ∧ ∀ d ∈ c.bytes, 0 ≤ d ∧ d < 256)
    ⟨fun ⟨length, proper⟩ => { length, proper }, fun h => ⟨h.length, h.proper⟩⟩

instance {c : Constant} : Decidable c.Standard :=
  inferInstanceAs <| Decidable (_ ∨ _)

end Constant
end Hcc
