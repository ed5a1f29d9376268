import Hcc.Library.ByteMemory
import Mathlib.Logic.Function.Basic

-- The exchange sort of `tcc-bootstrap-support.c`. The machine's words have `w` bits.
namespace Hcc.Support

open ByteMemory

variable {w : Nat}

-- `tmp = *left; *left = *right; *right = tmp;` for each of the `size` bytes.
def swapBytes (left right : BitVec w) : Nat → Memory w → Memory w
  | 0,        mem => mem
  | size + 1, mem =>
    let tmp := mem left
    swapBytes (left + 1) (right + 1) size
      (Function.update (Function.update mem left (mem right)) right tmp)

section Qsort

-- The comparison function reads the memory at the given pointers.
variable (compar : Memory w → BitVec w → BitVec w → Int) (bytes : BitVec w) (count size : Nat)

-- The body of the inner loop.
def qsort.compareSwap (i j : Nat) (mem : Memory w) : Memory w :=
  if compar mem (bytes + .ofNat w (i * size)) (bytes + .ofNat w (j * size)) > 0 then
    swapBytes (bytes + .ofNat w (i * size)) (bytes + .ofNat w (j * size)) size mem
  else
    mem

def qsort.later (i j : Nat) (mem : Memory w) : Memory w :=
  if j < count then
    later i (j + 1) (compareSwap compar bytes size i j mem)
  else
    mem
termination_by count - j

def qsort.positions (i : Nat) (mem : Memory w) : Memory w :=
  if i < count then
    positions (i + 1) (later compar bytes count size i (i + 1) mem)
  else
    mem
termination_by count - i

end Qsort

-- The null pointer is the address 0, and a null function pointer is `none`.
def qsort (base : BitVec w) (count size : Nat)
    (compar : Option (Memory w → BitVec w → BitVec w → Int)) (mem : Memory w) : Memory w :=
  match compar with
  | none        => mem
  | some compar => if base = 0 then mem else qsort.positions compar base count size 0 mem

end Hcc.Support
