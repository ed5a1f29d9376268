import Hcc.Strtod.Basic

-- The streams of `tcc-bootstrap-support.c`, which are descriptor numbers. The results of system
-- calls and of `malloc` are given to the functions that make the calls.
namespace Hcc.Support

open Strtod (int)

-- What happened at descriptors. `attempt`, `read` and `wrote` are system calls with their results, and
-- `overflow` is a write of more bytes than a `size_t` can count.
inductive Event
  | attempt (flags : Nat) (fd : Int)
  | opened (fd : Int)
  | closed (fd : Int)
  | cleared (fd : Int)
  | read (fd : Int) (size : Nat) (n : Int)
  | wrote (fd : Int) (size : Nat) (n : Int)
  | overflow (fd : Int)
deriving DecidableEq, Repr

structure StreamState where
  fd    : Int
  error : Int
deriving DecidableEq, Repr

-- The head of `events` is the latest event.
structure Streams where
  standardErrors : Fin 3 → Int
  streams        : List StreamState
  events         : List Event

namespace Streams

def initial : Streams where
  standardErrors := fun _ => 0
  streams        := []
  events         := []

def log (s : Streams) (e : Event) : Streams :=
  { s with events := e :: s.events }

-- `hcc_stream_error` returns a pointer: this is the value that it points to.
def hccStreamError (s : Streams) (fd : Int) : Option Int :=
  if h : fd ≥ 0 ∧ fd < 3 then
    some (s.standardErrors ⟨fd.toNat, by omega⟩)
  else
    (s.streams.find? (·.fd = fd)).map (·.error)

def storeError.go (fd value : Int) : List StreamState → List StreamState
  | []        => []
  | p :: next => if p.fd = fd then { p with error := value } :: next else p :: go fd value next

-- An assignment to the target of the pointer that `hcc_stream_error` returns.
def storeError (s : Streams) (fd value : Int) : Streams :=
  if fd ≥ 0 ∧ fd < 3 then
    { s with standardErrors := fun i => if i = fd then value else s.standardErrors i }
  else
    { s with streams := storeError.go fd value s.streams }

def hccStreamOpen.reuse (fd : Int) : List StreamState → Option (List StreamState)
  | []        => none
  | p :: next => if p.fd = -1 then some (⟨fd, 0⟩ :: next) else (reuse fd next).map (p :: ·)

def hccStreamOpen (fd : Int) (memory : Bool) (s : Streams) : Bool × Streams :=
  if (s.hccStreamError fd).isSome then (true, (s.storeError fd 0).log (.opened fd))
  else
    match hccStreamOpen.reuse fd s.streams with
    | some streams => (true, { s with streams := streams }.log (.opened fd))
    | none         =>
      if memory then (true, { s with streams := ⟨fd, 0⟩ :: s.streams }.log (.opened fd))
      else (false, s)

def ferror (stream : Int) (s : Streams) : Int :=
  match s.hccStreamError (int stream) with
  | none       => 1
  | some error => error

def clearerr (stream : Int) (s : Streams) : Streams :=
  match s.hccStreamError (int stream) with
  | none   => s
  | some _ => (s.storeError (int stream) 0).log (.cleared (int stream))

section Write

-- The type `size_t` has `w` bits.
variable (w : Nat)

-- There is no result if the results of `write` do not end the loop.
def hccStreamWrite.go (fd : Int) (count done : Nat) :
    List Int → Streams → Option (Nat × Streams)
  | [],           s => if done < count then none else some (done, s)
  | n :: results, s =>
    if done < count then
      let chunk := min (count - done) 0x7fffffff
      let s := s.log (.wrote fd chunk n)
      if n ≤ 0 then some (done, s.storeError fd 1)
      else go fd count ((done + n.toNat) % 2 ^ w) results s
    else
      some (done, s)

def hccStreamWrite (count : Nat) (stream : Int) (results : List Int) (s : Streams) :
    Option (Nat × Streams) :=
  match s.hccStreamError (int stream) with
  | none   => some (0, s)
  | some _ => hccStreamWrite.go w (int stream) count 0 results s

def fputc (c : Int) (stream : Int) (results : List Int) (s : Streams) : Option (Int × Streams) := do
  let ch := c % 256
  let (done, s) ← hccStreamWrite w 1 stream results s
  return (if done = 1 then ch else -1, s)

-- The bytes of `text` before its terminator.
def fputs (text : List UInt8) (stream : Int) (results : List Int) (s : Streams) :
    Option (Int × Streams) := do
  let n := text.length
  let (done, s) ← hccStreamWrite w n stream results s
  return (if done ≠ n then -1 else 0, s)

def fwrite (size count : Nat) (stream : Int) (results : List Int) (s : Streams) :
    Option (Nat × Streams) :=
  if size = 0 ∨ count = 0 ∨ (s.hccStreamError (int stream)).isNone then some (0, s)
  else if count > (2 ^ w - 1) / size then
    some (0, (s.log (.overflow (int stream))).storeError (int stream) 1)
  else do
    let (done, s) ← hccStreamWrite w (size * count % 2 ^ w) stream results s
    return (done / size, s)

def fread (size count : Nat) (stream : Int) (bytes : Int) (s : Streams) : Nat × Streams :=
  if size = 0 ∨ count = 0 ∨ (s.hccStreamError (int stream)).isNone then (0, s)
  else
    let s := s.log (.read (int stream) (size * count % 2 ^ w) bytes)
    let s := if bytes < 0 then s.storeError (int stream) 1 else s
    if bytes ≤ 0 then (0, s) else (bytes.toNat / size, s)

end Write

def fgetc (stream : Int) (n : Int) (c : UInt8) (s : Streams) : Int × Streams :=
  match s.hccStreamError (int stream) with
  | none   => (-1, s)
  | some _ =>
    let s := s.log (.read (int stream) 1 n)
    if n = 1 then (c.toNat, s)
    else (-1, if n < 0 then s.storeError (int stream) 1 else s)

-- The standard descriptors are not returned by `fopen`.
def fopen.retry (flags : Nat) : List Int → Streams → Option (Int × Streams)
  | [],            _ => none
  | fd :: results, s =>
    let s := s.log (.attempt flags fd)
    if fd ≥ 0 ∧ fd < 3 then retry flags results s else some (fd, s)

def fopen.flags (mode : List Char) : Nat :=
  let update := '+' ∈ mode
  match mode.head? with
  | some 'w' => if update then 578 else 577
  | some 'a' => if update then 1090 else 1089
  | _        => 0

-- The null pointer is 0.
def fopen (mode : List Char) (results : List Int) (memory : Bool) (s : Streams) :
    Option (Int × Streams) := do
  let (fd, s) ← fopen.retry (fopen.flags mode) results s
  if fd < 0 then return (0, s)
  else
    match hccStreamOpen fd memory s with
    | (false, s) => return (0, s.log (.closed fd))
    | (true,  s) => return (fd, s)

def fdopen (fd : Int) (memory : Bool) (s : Streams) : Int × Streams :=
  if fd < 0 then (0, s)
  else
    match hccStreamOpen fd memory s with
    | (false, s) => (0, s)
    | (true,  s) => (fd, s)

def fclose (stream : Int) (result : Int) (s : Streams) : Int × Streams :=
  if int stream < 3 then (0, s)
  else
    let close p := if p.fd = int stream then { p with fd := -1 } else p
    (result, { s with streams := s.streams.map close }.log (.closed (int stream)))

end Streams

-- The calls of the program, with the results of the system calls that they make.
inductive Call
  | fopen (mode : List Char) (results : List Int) (memory : Bool)
  | fdopen (fd : Int) (memory : Bool)
  | fclose (stream result : Int)
  | clearerr (stream : Int)
  | ferror (stream : Int)
  | fgetc (stream n : Int) (c : UInt8)
  | fputc (c stream : Int) (results : List Int)
  | fputs (text : List UInt8) (stream : Int) (results : List Int)
  | fread (size count : Nat) (stream bytes : Int)
  | fwrite (size count : Nat) (stream : Int) (results : List Int)

-- The state after a call, which does not exist if the call does not return.
def Call.step (w : Nat) (s : Streams) : Call → Option Streams
  | fopen mode results memory        => (s.fopen mode results memory).map (·.2)
  | fdopen fd memory                 => (s.fdopen fd memory).2
  | fclose stream result             => (s.fclose stream result).2
  | clearerr stream                  => s.clearerr stream
  | ferror _                         => s
  | fgetc stream n c                 => (s.fgetc stream n c).2
  | fputc c stream results           => (s.fputc w c stream results).map (·.2)
  | fputs text stream results        => (s.fputs w text stream results).map (·.2)
  | fread size count stream bytes    => (s.fread w size count stream bytes).2
  | fwrite size count stream results => (s.fwrite w size count stream results).map (·.2)

def Call.run (w : Nat) : List Call → Streams → Option Streams
  | [],            s => some s
  | call :: calls, s => do run w calls (← call.step w s)

end Hcc.Support
