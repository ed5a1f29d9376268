import Hcc.Lexer.Token

namespace Hcc

structure Directive where
  name : String
  rest : List Char
deriving DecidableEq, Repr

def isDirectiveChar (c : Char) : Bool :=
  isAsciiAlpha c || isDigitChar c || c = '_'

def dropSpaces : List Char → List Char :=
  List.dropWhile isSpaceChar

def trim (text : List Char) : List Char :=
  ((text.dropWhile isSpaceChar).reverse.dropWhile isSpaceChar).reverse

def parseDirective (text : String) : Directive :=
  match dropSpaces text.toList with
  | '#' :: rest =>
    let rest' := dropSpaces rest
    ⟨.ofList <| rest'.takeWhile isDirectiveChar, dropSpaces <| rest'.dropWhile isDirectiveChar⟩
  | _ => ⟨"", []⟩

def directiveName (text : List Char) : Option String :=
  match dropSpaces text with
  | c :: cs => if isIdentStart c then some <| .ofList <| (c :: cs).takeWhile isIdentChar else none
  | []      => none

-- A conditional group that contains the current line. The surrounding group is active, a branch of the
-- group has already been taken, and the current branch is active.
structure IfFrame where
  parent : Bool
  taken  : Bool
  active : Bool
deriving DecidableEq, Repr

inductive IfDirective
  | if   (condition : Bool)
  | elif (condition : Bool)
  | else
  | endif
deriving DecidableEq, Repr

def ifStackActive : List IfFrame → Bool
  | []         => true
  | frame :: _ => frame.active

def pushIfFrame (frames : List IfFrame) (condition : Bool) : List IfFrame :=
  let parent := ifStackActive frames
  let active := parent && condition
  ⟨parent, active, active⟩ :: frames

def replaceElifFrame (condition : Bool) : List IfFrame → Option (List IfFrame)
  | []            => none
  | frame :: rest =>
    let active := frame.parent && !frame.taken && condition
    some ({ frame with taken := frame.taken || active, active } :: rest)

def replaceElseFrame : List IfFrame → Option (List IfFrame)
  | []            => none
  | frame :: rest =>
    some ({ frame with taken := true, active := frame.parent && !frame.taken } :: rest)

def popIfFrame : List IfFrame → Option (List IfFrame)
  | []        => none
  | _ :: rest => some rest

def applyIfDirective (frames : List IfFrame) : IfDirective → Option (List IfFrame)
  | .if condition   => some (pushIfFrame frames condition)
  | .elif condition => replaceElifFrame condition frames
  | .else           => replaceElseFrame frames
  | .endif          => popIfFrame frames

end Hcc
