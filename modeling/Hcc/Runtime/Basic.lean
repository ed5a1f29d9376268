import Mathlib.Init

-- The buffered output of `hcc_runtime.c` and `HccSystem.hs`.
namespace Hcc

-- The ways in which the process ends early. `undefined` stands for a write outside of a buffer.
inductive Exit
  | outOfMemory
  | outputFailure
  | noObuf
  | undefined
deriving DecidableEq, Repr

-- `data` is the allocated memory, so its length is the capacity.
structure Obuf where
  data : List UInt8
  len  : Nat
deriving DecidableEq, Repr

def Obuf.cap (out : Obuf) : Nat :=
  out.data.length

-- The open output file, and the table of buffers. Allocations of more than `memory` bytes fail.
structure Runtime where
  file   : Option (List UInt8)
  obufs  : List (Option Obuf)
  memory : Nat

-- The runtime stays as it is when the process ends. `none` is for a computation without enough fuel.
abbrev Io := ExceptT Exit (StateT Runtime Option)

section Obufs

-- The memory beyond the old size is filled with zeros here, but it is written before it is read.
def checkedRealloc (data : List UInt8) (size : Nat) : Io (List UInt8) := do
  if size > (← get).memory then throw .outOfMemory
  else return data.take size ++ List.replicate (size - data.length) 0

def ensureChars.grow (next needed : Nat) : Nat :=
  if 0 < next ∧ next < needed then grow (next * 2) needed else next
termination_by needed - next

def ensureChars (out : Obuf) (needed : Nat) : Io Obuf := do
  if out.cap ≥ needed then return out
  else
    let next := ensureChars.grow (if out.cap = 0 then 64 else out.cap) needed
    return { out with data := ← checkedRealloc out.data next }

-- `out->data[out->len++] = (char)c`
def putChar (out : Obuf) (c : Char) : Io Obuf :=
  if out.len < out.cap then return ⟨out.data.set out.len (.ofNat c.toNat), out.len + 1⟩
  else throw .undefined

def getObuf (handle : Nat) : Io (Option Obuf) := do
  if handle = 0 then return none else return ((← get).obufs[handle - 1]?).join

def setObuf (handle : Nat) (out : Option Obuf) : Io Unit :=
  modify fun rt => { rt with obufs := rt.obufs.set (handle - 1) out }

def allocObuf (out : Obuf) : Io Nat := do
  match (← get).obufs.findIdx? Option.isNone with
  | none   => return 0
  | some i => do
    setObuf (i + 1) (some out)
    return i + 1

def hccObufNew (initialCap : Int) : Io Nat := do
  let data ← checkedRealloc [] (if initialCap > 0 then initialCap.toNat else 64)
  allocObuf ⟨data, 0⟩

def hccObufFree (handle : Nat) : Io Unit := do
  match ← getObuf handle with
  | none   => return ()
  | some _ => setObuf handle none

-- The capacity is checked once for all of the characters.
def hccObufPutChars (handle : Nat) (cs : List Char) : Io Unit := do
  match ← getObuf handle with
  | none     => return ()
  | some out => do
    let out ← ensureChars out (out.len + cs.length)
    setObuf handle (some (← cs.foldlM putChar out))

def hccObufPut (handle : Nat) (c : Char) : Io Unit :=
  hccObufPutChars handle [c]

def hccObufPut4 (handle : Nat) (c₁ c₂ c₃ c₄ : Char) : Io Unit :=
  hccObufPutChars handle [c₁, c₂, c₃, c₄]

def hccObufPut8 (handle : Nat) (c₁ c₂ c₃ c₄ c₅ c₆ c₇ c₈ : Char) : Io Unit :=
  hccObufPutChars handle [c₁, c₂, c₃, c₄, c₅, c₆, c₇, c₈]

-- The calls that write to the file succeed.
def hccObufWrite (handle : Nat) : Io Unit := do
  match (← get).file, ← getObuf handle with
  | some text, some out =>
    modify fun rt => { rt with file := some (text ++ out.data.take out.len) }
  | _,         _        => throw .outputFailure

def hccHandleFlush : Io Unit := do
  if (← get).file.isNone then throw .outputFailure

end Obufs

section Writers

def outputChunkSize : Int := 65536

def hccWriteBufferedText (out : Nat) : List Char → Io Unit
  | []                                                   => return ()
  | c₁ :: c₂ :: c₃ :: c₄ :: c₅ :: c₆ :: c₇ :: c₈ :: rest => do
    hccObufPut8 out c₁ c₂ c₃ c₄ c₅ c₆ c₇ c₈
    hccWriteBufferedText out rest
  | c₁ :: c₂ :: c₃ :: c₄ :: rest                         => do
    hccObufPut4 out c₁ c₂ c₃ c₄
    hccWriteBufferedText out rest
  | c :: rest                                            => do
    hccObufPut out c
    hccWriteBufferedText out rest

def hccWriteTransactionLine (out : Nat) (line : String) : Io Unit := do
  hccWriteBufferedText out line.toList
  hccObufPut out '\n'

def hccWithObuf (initialCap : Int) (action : Nat → Io α) : Io α := do
  let out ← hccObufNew initialCap
  if out = 0 then throw .noObuf
  else
    let result ← action out
    hccObufFree out
    return result

-- The bytes are only written to the file if the action succeeds.
def hccWithTransactionalLineWriter (action : (String → Io Unit) → Io (Except ε α)) :
    Io (Except ε α) :=
  hccWithObuf outputChunkSize fun out => do
    let result ← action (hccWriteTransactionLine out)
    match result with
    | .error _ => return result
    | .ok _    => do
      hccObufWrite out
      hccHandleFlush
      return result

end Writers
end Hcc
