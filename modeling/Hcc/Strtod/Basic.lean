import Mathlib.Algebra.Group.Int.Defs
import Mathlib.Algebra.Group.Nat.Defs
import Mathlib.Data.Int.Init

-- The conversions of strings to numbers by the support library of the seed and by the Mes libc.
namespace Hcc.Strtod

-- The types `unsigned long`, `long` and `int` of the LP64 targets.
def unsignedLong (n : Nat) : Nat :=
  n % 2 ^ 64

def long (n : Int) : Int :=
  n.bmod (2 ^ 64)

def int (n : Int) : Int :=
  n.bmod (2 ^ 32)

def ulongMax : Nat :=
  0xffffffffffffffff

-- The bits of a `double`.
abbrev Double :=
  BitVec 64

def Double.neg (d : Double) : Double :=
  d ^^^ 0x8000000000000000#64

section Scaling

def hidden : Nat :=
  0x10000000000000

def overflow : Nat :=
  0x20000000000000

-- The implementations differ in how a mantissa is halved.
variable (halve : Nat → Nat)

-- A loop that does not end runs out of fuel.
def shrink : (fuel : Nat) → (mantissa : Nat) → (exp2 : Int) → Option (Nat × Int)
  | 0,        _,        _    => none
  | fuel + 1, mantissa, exp2 =>
    if mantissa ≥ overflow then shrink fuel (halve mantissa) (int (exp2 + 1)) else some (mantissa, exp2)

def stretch : (fuel : Nat) → (mantissa : Nat) → (exp2 : Int) → Option (Nat × Int)
  | 0,        _,        _    => none
  | fuel + 1, mantissa, exp2 =>
    if mantissa < hidden then stretch fuel (unsignedLong (mantissa <<< 1)) (int (exp2 - 1))
    else some (mantissa, exp2)

def doubleFromScaledUint64 (fuel : Nat) (mantissa : Nat) (exp2 : Int) : Option Double :=
  if mantissa = 0 then some 0
  else do
    let (mantissa, exp2) ← shrink halve fuel mantissa exp2
    let (mantissa, exp2) ← stretch fuel mantissa exp2
    let exponent := int (exp2 + 52)
    if exponent ≤ -1023 then return 0
    else if exponent ≥ 1024 then return 0x7ff0000000000000#64
    else
      let fraction := mantissa - hidden
      return BitVec.ofInt 64 (exponent + 1023) <<< 52 ||| BitVec.ofNat 64 fraction

end Scaling

-- The support library of the seed.
namespace Support

def halve (mantissa : Nat) : Nat :=
  unsignedLong (mantissa + 1) >>> 1

def hccDoubleFromScaledUint64 (fuel : Nat) (mantissa : Nat) (exp2 : Int) : Option Double :=
  doubleFromScaledUint64 halve fuel mantissa exp2

def digitValue (c : Char) : Option Nat :=
  if c ≥ '0' ∧ c ≤ '9' then some (c.toNat - '0'.toNat)
  else if c ≥ 'a' ∧ c ≤ 'z' then some (c.toNat - 'a'.toNat + 10)
  else if c ≥ 'A' ∧ c ≤ 'Z' then some (c.toNat - 'A'.toNat + 10)
  else none

def skipBlanks : List Char → List Char
  | ' ' :: p | '\t' :: p | '\n' :: p => skipBlanks p
  | p                                => p

def parseDigits (base : Nat) (value : Nat) : List Char → Nat × List Char
  | []     => (value, [])
  | c :: p =>
    match digitValue c with
    | none       => (value, c :: p)
    | some digit =>
      if digit ≥ base then (value, c :: p)
      else parseDigits base (unsignedLong (unsignedLong (value * base) + digit)) p

-- The base is found in the text if it is zero.
def parseBase (base : Nat) (p : List Char) : Nat × List Char :=
  if base = 0 then
    match p with
    | '0' :: 'x' :: p | '0' :: 'X' :: p => (16, p)
    | '0' :: p                          => (8, p)
    | p                                 => (10, p)
  else (base, p)

def parseUnsigned (nptr : List Char) (base : Nat) : Nat × List Char :=
  let (base, p) := parseBase base (skipBlanks nptr)
  parseDigits base 0 p

def strtol (nptr : List Char) (base : Nat) : Int × List Char :=
  match skipBlanks nptr with
  | '-' :: p =>
    let (value, p) := parseUnsigned p base
    (long (-long value), p)
  | '+' :: p =>
    let (value, p) := parseUnsigned p base
    (long value, p)
  | p        =>
    let (value, p) := parseUnsigned p base
    (long value, p)

def strtod (fuel : Nat) (nptr : List Char) : Option Double := do
  let value := (strtol nptr 10).1
  if value < 0 then
    let d ← hccDoubleFromScaledUint64 fuel (long (0 - value) % 2 ^ 64).toNat 0
    return d.neg
  else hccDoubleFromScaledUint64 fuel (value % 2 ^ 64).toNat 0

end Support

-- The replacement for the Mes libc.
namespace Mes

def halve (mantissa : Nat) : Nat :=
  unsignedLong ((mantissa >>> 1) + mantissa % 2)

def hccStrtodDoubleFromScaledUint64 (fuel : Nat) (mantissa : Nat) (exp2 : Int) : Option Double :=
  doubleFromScaledUint64 halve fuel mantissa exp2

def hccStrtodDigitValue (c : Char) : Nat :=
  if c ≥ '0' ∧ c ≤ '9' then c.toNat - '0'.toNat
  else if c ≥ 'a' ∧ c ≤ 'f' then c.toNat - 'a'.toNat + 10
  else if c ≥ 'A' ∧ c ≤ 'F' then c.toNat - 'A'.toNat + 10
  else 99

structure Significand where
  integer : Nat
  exp2    : Nat

-- The exponent saturates, but all digits are consumed.
def nextExp2 (exp2 : Nat) : Nat :=
  if exp2 < 4096 then exp2 + 1 else exp2

-- The significand is halved before the multiplication could overflow.
def reduce (limit : Nat) (s : Significand) : Significand :=
  if s.integer > limit then reduce limit ⟨s.integer >>> 1, nextExp2 s.exp2⟩ else s
termination_by s.integer
decreasing_by simp [Nat.shiftRight_succ]; omega

-- The limit depends on the digit that is added next.
def limit (base digit : Nat) : Nat :=
  (ulongMax - digit) / base

def addend (digit exp2 : Nat) : Nat :=
  if exp2 < 64 then digit >>> exp2 else 0

def addDigit (base digit : Nat) (s : Significand) : Significand :=
  let s := reduce (limit base digit) s
  { s with integer := unsignedLong (unsignedLong (s.integer * base) + addend digit s.exp2) }

-- The integer loop.
def integerDigits (base : Nat) (s : Significand) : List Char → Significand × List Char
  | []     => (s, [])
  | c :: p =>
    if hccStrtodDigitValue c < base then integerDigits base (addDigit base (hccStrtodDigitValue c) s) p
    else (s, c :: p)

-- The arithmetic on `double` that the fractions and the exponents of literals need.
structure Arithmetic where
  ofInt : Int → Double
  add   : Double → Double → Double
  mul   : Double → Double → Double
  div   : Double → Double → Double

variable (a : Arithmetic)

def fractionDigits (base : Nat) (out scale : Double) : List Char → Double × List Char
  | []     => (out, [])
  | c :: p =>
    if hccStrtodDigitValue c < base then
      fractionDigits base (a.add out (a.div (a.ofInt (hccStrtodDigitValue c)) scale)) (a.mul scale (a.ofInt base)) p
    else (out, c :: p)

def fraction (base : Nat) (out : Double) : List Char → Double × List Char
  | '.' :: p => fractionDigits a base out (a.ofInt base) p
  | p        => (out, p)

def exponentDigits (exp : Nat) : List Char → Nat × List Char
  | []     => (exp, [])
  | c :: p =>
    if c ≥ '0' ∧ c ≤ '9' then
      exponentDigits (if exp < 4096 then min (exp * 10 + (c.toNat - '0'.toNat)) 4096 else exp) p
    else (exp, c :: p)

def exponentSign : List Char → Bool × List Char
  | '-' :: p => (true, p)
  | '+' :: p => (false, p)
  | p        => (false, p)

def exponentPart (out : Double) (p : List Char) : Double × List Char :=
  let (negative, p) := exponentSign p
  let (exp, p) := exponentDigits 0 p
  (exp.repeat (fun out => if negative then a.div out (a.ofInt 10) else a.mul out (a.ofInt 10)) out, p)

def exponent (out : Double) : List Char → Double × List Char
  | 'e' :: p | 'E' :: p => exponentPart a out p
  | p                   => (out, p)

def abtod (fuel : Nat) (p : List Char) (base : Nat) : Option (Double × List Char) := do
  let base := if base = 0 then 10 else base
  let (negative, s) := exponentSign p
  let (significand, s) := integerDigits base ⟨0, 0⟩ s
  let out ← hccStrtodDoubleFromScaledUint64 fuel significand.integer significand.exp2
  let (out, s) := fraction a base out s
  let (out, s) := exponent a out s
  return (if negative then out.neg else out, s)

def strtod (fuel : Nat) (string : List Char) : Option Double := do
  match string with
  | '0' :: 'x' :: p | '0' :: 'X' :: p => return (← abtod a fuel p 16).1
  | p                                 => return (← abtod a fuel p 10).1

end Mes
end Hcc.Strtod
