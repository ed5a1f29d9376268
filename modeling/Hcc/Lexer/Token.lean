namespace Hcc

structure SrcPos where
  line : Int
  col  : Int
deriving DecidableEq, Repr

structure Span where
  start : SrcPos
  stop  : SrcPos
deriving DecidableEq, Repr

inductive TokenKind
  | ident     (text : String)
  | int       (text : String)
  | float     (text : String)
  | char      (text : String)
  | string    (text : String)
  | punct     (text : String)
  | directive (text : String)
deriving DecidableEq, Repr

structure Token where
  span : Span
  kind : TokenKind
deriving DecidableEq, Repr

def bareToken (kind : TokenKind) : Token :=
  ⟨⟨⟨1, 1⟩, ⟨1, 1⟩⟩, kind⟩

def tokenText : TokenKind → String
  | .ident s | .int s | .float s | .char s | .string s | .punct s | .directive s => s

def isSpaceChar (c : Char) : Bool :=
  c = ' ' || c = '\n' || c = '\x09' || c = '\x0d' || c = '\x0b' || c = '\x0c'

def isDigitChar (c : Char) : Bool :=
  c ≥ '0' && c ≤ '9'

def isAsciiAlpha (c : Char) : Bool :=
  (c ≥ 'a' && c ≤ 'z') || (c ≥ 'A' && c ≤ 'Z')

def isIdentStart (c : Char) : Bool :=
  isAsciiAlpha c || c = '_'

def isIdentChar (c : Char) : Bool :=
  isAsciiAlpha c || isDigitChar c || c = '_'

end Hcc
