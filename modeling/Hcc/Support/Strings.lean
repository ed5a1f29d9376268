import Hcc.Library.ByteMemory
import Mathlib.Logic.Function.Basic

-- The functions on memory and strings of `tcc-bootstrap-support.c`. The machine's words have `w` bits, `char` is
-- signed, and a loop that runs out of fuel has no result.
namespace Hcc.Support

open ByteMemory

variable {w : Nat}

section Memory

def memcpy (dest src : BitVec w) : (n : Nat) → Memory w → Memory w
  | 0,     mem => mem
  | n + 1, mem => memcpy (dest + 1) (src + 1) n (Function.update mem dest (mem src))

-- `d` and `s` are the ends of the bytes that are left.
def memmove.backward (d s : BitVec w) : (n : Nat) → Memory w → Memory w
  | 0,     mem => mem
  | n + 1, mem => backward (d - 1) (s - 1) n (Function.update mem (d - 1) (mem (s - 1)))

def memmove (dest src : BitVec w) (n : Nat) (mem : Memory w) : Memory w :=
  if dest < src then memcpy dest src n mem
  else memmove.backward (dest + .ofNat w n) (src + .ofNat w n) n mem

-- `size` is the number of bytes that are left.
def memcmp (mem : Memory w) (a b : BitVec w) : (size : Nat) → Int
  | 0        => 0
  | size + 1 =>
    if mem a = mem b ∧ size + 1 > 1 then memcmp mem (a + 1) (b + 1) size
    else (mem a).toNat - (mem b).toNat

end Memory

section Strings

def strcmp (mem : Memory w) : (fuel : Nat) → (left right : BitVec w) → Option Int
  | 0,        _,    _     => none
  | fuel + 1, left, right =>
    if mem left ≠ 0 ∧ mem right ≠ 0 ∧ mem left = mem right then strcmp mem fuel (left + 1) (right + 1)
    else some ((mem left).toInt - (mem right).toInt)

def strncmp (mem : Memory w) (left right : BitVec w) : (n : Nat) → Int
  | 0     => 0
  | n + 1 =>
    if mem left ≠ 0 ∧ mem right ≠ 0 ∧ mem left = mem right ∧ n + 1 > 1 then strncmp mem (left + 1) (right + 1) n
    else (mem left).toInt - (mem right).toInt

def strchr (mem : Memory w) (c : Int) : (fuel : Nat) → (text : BitVec w) → Option (BitVec w)
  | 0,        _    => none
  | fuel + 1, text =>
    if mem text ≠ 0 ∨ c = 0 then
      if (mem text).toInt = c then some text else strchr mem c fuel (text + 1)
    else some 0

def strcpy : (fuel : Nat) → (dest src : BitVec w) → Memory w → Option (Memory w)
  | 0,        _,    _,   _   => none
  | fuel + 1, dest, src, mem =>
    if mem src ≠ 0 then strcpy fuel (dest + 1) (src + 1) (Function.update mem dest (mem src))
    else some (Function.update mem dest 0)

def strncpy.pad (dest : BitVec w) : (n : Nat) → Memory w → Memory w
  | 0,     mem => mem
  | n + 1, mem => pad (dest + 1) n (Function.update mem dest 0)

def strncpy (dest src : BitVec w) : (n : Nat) → Memory w → Memory w
  | 0,     mem => mem
  | n + 1, mem =>
    if mem src ≠ 0 then strncpy (dest + 1) (src + 1) n (Function.update mem dest (mem src))
    else strncpy.pad dest (n + 1) mem

-- The copy of `strcat` is the one of `strcpy`.
def strcat (fuel : Nat) (dest src : BitVec w) (mem : Memory w) : Option (Memory w) := do
  strcpy fuel (← strchr mem 0 fuel dest) src mem

-- The end of the needle has been reached.
def strstr.scan (mem : Memory w) : (fuel : Nat) → (h n : BitVec w) → Option Bool
  | 0,        _, _ => none
  | fuel + 1, h, n =>
    if mem h ≠ 0 ∧ mem n ≠ 0 ∧ mem h = mem n then scan mem fuel (h + 1) (n + 1)
    else some (mem n = 0)

def strstr.search (mem : Memory w) (bound : Nat) (needle : BitVec w) :
    (fuel : Nat) → (haystack : BitVec w) → Option (BitVec w)
  | 0,        _        => none
  | fuel + 1, haystack => do
    if mem haystack ≠ 0 then
      if ← strstr.scan mem bound haystack needle then return haystack
      else search mem bound needle fuel (haystack + 1)
    else return 0

def strstr (mem : Memory w) (fuel : Nat) (haystack needle : BitVec w) : Option (BitVec w) :=
  if mem needle = 0 then some haystack else strstr.search mem fuel needle fuel haystack

end Strings
end Hcc.Support
