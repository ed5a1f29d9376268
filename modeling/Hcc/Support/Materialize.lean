import Mathlib.Init

-- The program `materialize-object-script.c`, which writes the payloads of a script to files.
namespace Hcc.Materialize

def lineCap : Nat := 262144
def pathCap : Nat := 4096

def chLf        : UInt8 := 10
def chCr        : UInt8 := 13
def chSpace     : UInt8 := 32
def chGt        : UInt8 := 62
def chDot       : UInt8 := 46
def chSlash     : UInt8 := 47
def chBackslash : UInt8 := 92
def chA         : UInt8 := 97
def chB         : UInt8 := 98
def chC         : UInt8 := 99
def chOLower    : UInt8 := 111
def chT         : UInt8 := 116

def bytes (s : String) : List UInt8 :=
  s.toList.map Char.toUInt8

-- The messages of failed runs, all of which end with status 1, except for `usage`.
inductive Failure
  | usage
  | outOfMemory
  | cannotOpenInput (path : List UInt8)
  | lineTooLong (lineNo : Nat)
  | unexpected (text : List UInt8) (lineNo : Nat)
  | unterminated (lineNo : Nat)
  | pathTooLong (dir file : List UInt8)
  | cannotOpenOutput (path : List UInt8)
  | writeFailed (path : List UInt8)
  | closeFailed (path : List UInt8)
  | noPayloads
deriving DecidableEq, Repr

def Failure.status : Failure → Nat
  | usage => 2
  | _     => 1

-- The results of `fopen`, `fputs` and `fclose`. A failed `fputs` has written a number of bytes.
inductive Answer
  | done
  | failed (written : Nat)
deriving DecidableEq, Repr

-- The file that remains to be read, and the string in the buffer `line`.
structure State where
  input    : List UInt8
  line     : List UInt8
  lineNo   : Nat
  calls    : Nat
  wroteAny : Bool

-- A file that is opened for writing, and the bytes that are written to it.
structure Output where
  path    : List UInt8
  written : List UInt8
deriving DecidableEq, Repr

section Lines

def trimLineEnd (s : List UInt8) : List UInt8 :=
  let s := if s.getLast? = some chLf then s.dropLast else s
  if s.getLast? = some chCr then s.dropLast else s

def isEofLine (s : List UInt8) : Bool :=
  s = bytes "EOF\n" || s = bytes "EOF\r\n" || s = bytes "EOF"

-- The bytes up to the end of a line and the rest. There are none if the line does not fit.
def readLine.go (len : Nat) : List UInt8 → Option (List UInt8 × List UInt8)
  | []         => some ([], [])
  | c :: input =>
    if len ≥ lineCap - 1 then none
    else if c = chLf then some ([c], input)
    else (go (len + 1) input).map fun (line, rest) => (c :: line, rest)

-- The buffer is a string, which ends at its first zero.
def readLine (s : State) : Except Failure (Option State) :=
  match readLine.go 0 s.input with
  | none              => .error (.lineTooLong (s.lineNo + 1))
  | some ([],   _)    => .ok none
  | some (line, rest) =>
    .ok <| some { s with input := rest, line := line.takeWhile (· ≠ 0), lineNo := s.lineNo + 1 }

end Lines

section Header

-- The results 0, -1 and 1 of `parse_header`.
inductive Header
  | empty
  | invalid
  | object (name : List UInt8)
deriving DecidableEq, Repr

def parseHeader.check (name : List UInt8) : Header :=
  let j := name.length
  if j < 4 then .invalid
  else if name[0]? = some chDot then .invalid
  else if name[j - 3]? ≠ some chDot then .invalid
  else if name[j - 2]? ≠ some chOLower then .invalid
  else if name[j - 1]? ≠ some chB then .invalid
  else .object name

def parseHeader.go (name : List UInt8) : List UInt8 → Header
  | []     => .invalid
  | c :: s =>
    if c = chSpace then check name
    else if name.length ≥ pathCap - 1 then .invalid
    else if c = chSlash then .invalid
    else if c = chBackslash then .invalid
    else if c = chLf then .invalid
    else if c = chCr then .invalid
    else if c = chDot ∧ name.getLast? = some chDot then .invalid
    else go (name ++ [c]) s

-- The string is a line whose end is trimmed.
def parseHeader (s : List UInt8) : Header :=
  if s = [] then .empty
  else if [chC, chA, chT, chSpace, chGt, chSpace].isPrefixOf s then parseHeader.go [] (s.drop 6)
  else .invalid

def makePath (dir file : List UInt8) : Option (List UInt8) :=
  if dir.length + file.length + 2 ≥ pathCap then none else some (dir ++ chSlash :: file)

end Header

section Main

theorem readLine.go_length {len : Nat} {input line rest : List UInt8}
    (h : readLine.go len input = some (line, rest)) : line.length + rest.length = input.length := by
  induction input generalizing len line
  case nil => cases h; rfl
  case cons c input hi =>
    rw [go] at h
    split at h
    case isTrue => nomatch h
    case isFalse =>
      split at h
      case isTrue => cases h; exact Nat.add_comm ..
      case isFalse =>
        have ⟨⟨l, r⟩, hg, he⟩ := Option.map_eq_some_iff.mp h
        cases he
        have := hi hg
        simp only [List.length_cons]
        omega

theorem readLine_length {s s' : State} (h : readLine s = .ok (some s')) :
    s'.input.length < s.input.length := by
  rw [readLine] at h
  split at h
  case h_1 => nomatch h
  case h_2 => nomatch h
  case h_3 line rest hn hg =>
    cases h
    have hl := readLine.go_length hg
    have : line ≠ [] := fun he => hn he
    have := List.length_pos_iff.mpr this
    dsimp only
    omega

variable (answers : Nat → Answer)

-- The inner loop, up to and including an EOF line or up to the end of the file.
def payload (path : List UInt8) (s : State) (written : List UInt8) : Except Failure State × List UInt8 :=
  match _h : readLine s with
  | .error e      => (.error e, written)
  | .ok none      => (.ok s, written)
  | .ok (some s') =>
    if isEofLine s'.line then (.ok s', written)
    else
      match answers s'.calls with
      | .done     => payload path { s' with calls := s'.calls + 1 } (written ++ s'.line)
      | .failed n => (.error (.writeFailed path), written ++ s'.line.take n)
termination_by s.input.length
decreasing_by exact readLine_length ‹_›

theorem payload_length {path written written' : List UInt8} {s s' : State}
    (h : payload answers path s written = (.ok s', written')) : s'.input.length ≤ s.input.length := by
  fun_induction payload answers path s written
  case case1 => nomatch h
  case case2 => cases h; exact Nat.le_refl _
  case case3 hr _ => cases h; exact Nat.le_of_lt <| readLine_length hr
  case case4 hr _ _ hi =>
    have hl := readLine_length hr
    exact Nat.le_trans (hi h) <| Nat.le_of_lt hl
  case case5 => nomatch h

-- The outer loop, up to the end of the file.
def objects (dir : List UInt8) (s : State) (outputs : List Output) : Except Failure State × List Output :=
  match _h : readLine s with
  | .error e      => (.error e, outputs)
  | .ok none      => (.ok s, outputs)
  | .ok (some s') =>
    let header := parseHeader (trimLineEnd s'.line)
    let s' := { s' with line := trimLineEnd s'.line }
    match header with
    | .empty       => objects dir s' outputs
    | .invalid     => (.error (.unexpected s'.line s'.lineNo), outputs)
    | .object name =>
      match makePath dir name with
      | none      => (.error (.pathTooLong dir name), outputs)
      | some path =>
        match answers s'.calls with
        | .failed _ => (.error (.cannotOpenOutput path), outputs ++ [⟨path, []⟩])
        | .done     =>
          match _hp : payload answers path { s' with calls := s'.calls + 1 } [] with
          | (.error e, written) => (.error e, outputs ++ [⟨path, written⟩])
          | (.ok s'', written)  =>
            let outputs := outputs ++ [⟨path, written⟩]
            if !isEofLine s''.line then (.error (.unterminated s''.lineNo), outputs)
            else
              match answers s''.calls with
              | .failed _ => (.error (.closeFailed path), outputs)
              | .done     => objects dir { s'' with calls := s''.calls + 1, wroteAny := true } outputs
termination_by s.input.length
decreasing_by
  · exact readLine_length ‹_›
  · have hl := readLine_length _h
    exact Nat.lt_of_le_of_lt (payload_length answers _hp) hl

-- The exit status and the files that are written. An input file that cannot be opened is `none`.
def main (argv : List (List UInt8)) (memory : Bool) (file : List UInt8 → Option (List UInt8)) :
    Except Failure Unit × List Output :=
  match argv with
  | [_, script, dir] =>
    if !memory then (.error .outOfMemory, [])
    else
      match file script with
      | none       => (.error (.cannotOpenInput script), [])
      | some input =>
        match objects answers dir ⟨input, [], 0, 0, false⟩ [] with
        | (.error e, outputs) => (.error e, outputs)
        | (.ok s, outputs)    =>
          match answers s.calls with
          | .failed _ => (.error (.closeFailed script), outputs)
          | .done     => if !s.wroteAny then (.error .noPayloads, outputs) else (.ok (), outputs)
  | _                => (.error .usage, [])

def exitStatus : Except Failure Unit → Nat
  | .error e => e.status
  | .ok _    => 0

end Main
end Hcc.Materialize
