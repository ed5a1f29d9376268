import Hcc.Strtod.Basic
import Mathlib.Logic.Function.Basic

-- The formatted output of `tcc-bootstrap-support.c`. The type `long` has `w` bits.
namespace Hcc.Support

open Strtod (int)

-- The positions are relative to `out`. The memory starts there, and `total` is a counter of type `int`.
structure Output where
  p      : Nat
  total  : Int
  memory : Nat → UInt8

section Append

variable (stop : Nat)

def hccAppendChar (o : Output) (c : UInt8) : Output where
  p      := if o.p < stop then o.p + 1 else o.p
  total  := int (o.total + 1)
  memory := if o.p < stop then Function.update o.memory o.p c else o.memory

-- The bytes of a string before its terminator.
def hccAppendString (o : Output) : List UInt8 → Output
  | []        => o
  | c :: text => hccAppendString (hccAppendChar stop o c) text

def hccAppendStringLimit (o : Output) (limit n : Int) : List UInt8 → Output
  | []        => o
  | c :: text =>
    if limit < 0 ∨ n < limit then hccAppendStringLimit (hccAppendChar stop o c) limit (int (n + 1)) text
    else o

def hccStringLen (n : Int) : List UInt8 → Int
  | []        => n
  | _ :: text => hccStringLen (int (n + 1)) text

def hccStringNLen (limit n : Int) : List UInt8 → Int
  | []        => n
  | _ :: text => if limit < 0 ∨ n < limit then hccStringNLen limit (int (n + 1)) text else n

def hccUnsignedLen (value base : Nat) : Int :=
  if _ : value ≥ base ∧ base > 1 then int (hccUnsignedLen (value / base) base + 1) else 1
termination_by value
decreasing_by exact Nat.div_lt_self (by omega) (by omega)

def hccSignedLen {w : Nat} (value : BitVec w) : Int :=
  if value.toInt < 0 then int (1 + hccUnsignedLen (-value).toNat 10) else hccUnsignedLen value.toNat 10

def hccAppendPadding (o : Output) (width used : Int) : Output :=
  if width > used then hccAppendPadding (hccAppendChar stop o ' '.toUInt8) (width - 1) used else o
termination_by (width - used).toNat

-- The elements of the array `digits`, of which the head is the last one.
def hccAppendUnsigned.digits (base value : Nat) (ds : List UInt8) : List UInt8 :=
  if _ : value ≠ 0 ∧ base > 1 then
    let digit := value % base
    let d := if digit < 10 then '0'.toNat + digit else 'a'.toNat + digit - 10
    digits base (value / base) (.ofNat d :: ds)
  else
    ds
termination_by value
decreasing_by exact Nat.div_lt_self (by omega) (by omega)

def hccAppendUnsigned (o : Output) (value base : Nat) : Output :=
  if value = 0 then
    hccAppendChar stop o '0'.toUInt8
  else
    hccAppendString stop o (hccAppendUnsigned.digits base value [])

def hccAppendSigned {w : Nat} (o : Output) (value : BitVec w) : Output :=
  if value.toInt < 0 then
    hccAppendUnsigned stop (hccAppendChar stop o '-'.toUInt8) (-value).toNat 10
  else
    hccAppendUnsigned stop o value.toNat 10

end Append

def hccFormatArg {w : Nat} (index : Int) (a b c : BitVec w) : BitVec w :=
  if index = 0 then a else if index = 1 then b else c

-- What follows a `%`. There is no conversion at the end of the format.
structure Directive where
  left       : Bool
  width      : Int
  conversion : Option UInt8

def hccVformat.width (width : Int) : List UInt8 → Int × List UInt8
  | []       => (width, [])
  | c :: fmt =>
    if c ≥ '0'.toUInt8 ∧ c ≤ '9'.toUInt8 then
      hccVformat.width (int (width * 10 + c.toNat - '0'.toNat)) fmt
    else
      (width, c :: fmt)

def hccVformat.flag (flag : Char) : List UInt8 → Bool × List UInt8
  | []       => (false, [])
  | c :: fmt => if c = flag.toUInt8 then (true, fmt) else (false, c :: fmt)

def hccVformat.directive (fmt : List UInt8) : Directive × List UInt8 :=
  let (left, fmt) := flag '-' fmt
  let (width, fmt) := hccVformat.width 0 fmt
  let (_, fmt) := flag 'l' fmt
  (⟨left, width, fmt.head?⟩, fmt.tail)

section Vformat

variable {w : Nat}

-- The strings at the addresses of the memory.
variable (strings : BitVec w → List UInt8)

def nullText : List UInt8 :=
  "(null)".toList.map Char.toUInt8

-- `if (!text) text = "(null)";`
def textAt (value : BitVec w) : List UInt8 :=
  if value = 0 then nullText else strings value

variable (stop : Nat)

def hccVformat.padded (d : Directive) (used : Int) (append : Output → Output) (o : Output) : Output :=
  let o := if d.left then o else hccAppendPadding stop o d.width used
  let o := append o
  if d.left then hccAppendPadding stop o d.width used else o

-- The character at the end of the format is its terminator.
def hccVformat.convert (d : Directive) (value : BitVec w) (o : Output) : Output :=
  match d.conversion with
  | none   => hccAppendChar stop (hccAppendChar stop o '%'.toUInt8) 0
  | some c =>
    if c = 's'.toUInt8 then
      let text := textAt strings value
      hccVformat.padded stop d (hccStringLen 0 text) (hccAppendString stop · text) o
    else if c = 'd'.toUInt8 ∨ c = 'i'.toUInt8 then
      hccVformat.padded stop d (hccSignedLen value) (hccAppendSigned stop · value) o
    else if c = 'u'.toUInt8 then
      hccVformat.padded stop d (hccUnsignedLen value.toNat 10) (hccAppendUnsigned stop · value.toNat 10) o
    else if c = 'x'.toUInt8 ∨ c = 'X'.toUInt8 then
      hccVformat.padded stop d (hccUnsignedLen value.toNat 16) (hccAppendUnsigned stop · value.toNat 16) o
    else if c = 'c'.toUInt8 then
      hccVformat.padded stop d 1 (hccAppendChar stop · (.ofNat value.toNat)) o
    else if c = '%'.toUInt8 then
      hccAppendChar stop o '%'.toUInt8
    else
      hccAppendChar stop (hccAppendChar stop o '%'.toUInt8) c

theorem hccVformat.width_length (n : Int) (fmt : List UInt8) :
    (hccVformat.width n fmt).2.length ≤ fmt.length := by
  induction fmt generalizing n
  case nil => exact Nat.le_refl _
  case cons c fmt hi =>
    rw [hccVformat.width]
    split
    case isTrue  => exact Nat.le_succ_of_le <| hi _
    case isFalse => exact Nat.le_refl _

theorem hccVformat.flag_length (flag : Char) (fmt : List UInt8) :
    (hccVformat.flag flag fmt).2.length ≤ fmt.length := by
  cases fmt
  case nil => exact Nat.le_refl _
  case cons c fmt =>
    rw [hccVformat.flag]
    split
    case isTrue  => exact Nat.le_succ _
    case isFalse => exact Nat.le_refl _

theorem hccVformat.directive_length {fmt : List UInt8} :
    (hccVformat.directive fmt).2.length ≤ fmt.length := by
  simp only [hccVformat.directive, List.length_tail]
  have hl := flag_length 'l' (hccVformat.width 0 (flag '-' fmt).2).2
  have hw := width_length 0 (flag '-' fmt).2
  have hf := flag_length '-' fmt
  omega

-- `%%` does not use an argument.
def hccVformat.loop (a b c : BitVec w) (arg : Int) (o : Output) : List UInt8 → Output
  | []        => o
  | ch :: fmt =>
    if ch ≠ '%'.toUInt8 then loop a b c arg (hccAppendChar stop o ch) fmt
    else
      let d := directive fmt
      let o := convert strings stop d.1 (hccFormatArg arg a b c) o
      let arg := int (arg + 1)
      loop a b c (if d.1.conversion = some '%'.toUInt8 then int (arg - 1) else arg) o d.2
termination_by fmt => fmt.length
decreasing_by
  · simp
  · exact Nat.lt_succ_of_le hccVformat.directive_length

end Vformat

-- The memory at `out` after a call, and the result of the call.
def hccVformat {w : Nat} (strings : BitVec w → List UInt8) (memory : Nat → UInt8) (size : Nat)
    (fmt : List UInt8) (a b c : BitVec w) : Int × (Nat → UInt8) :=
  let o := hccVformat.loop strings (size - 1) a b c 0 ⟨0, 0, memory⟩ fmt
  (o.total, if size ≠ 0 then Function.update o.memory o.p 0 else o.memory)

end Hcc.Support
