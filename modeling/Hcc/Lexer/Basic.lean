import Hcc.Lexer.Token
import Hcc.Literal.Basic

namespace Hcc

structure LexError where
  pos     : SrcPos
  message : String
deriving DecidableEq, Repr

structure LexState where
  input : List Char
  pos   : SrcPos
  bol   : Bool
deriving DecidableEq, Repr

inductive NumberClass
  | int
  | float
deriving DecidableEq, Repr

def nextPos (c : Char) (pos : SrcPos) : SrcPos :=
  if c = '\n' then ⟨pos.line + 1, 1⟩ else ⟨pos.line, pos.col + 1⟩

def nextBol (c : Char) (bol : Bool) : Bool :=
  c = '\n' || (isSpaceChar c && c ≠ '\n' && bol)

def advance (c : Char) (st : LexState) : LexState :=
  { st with pos := nextPos c st.pos, bol := nextBol c st.bol }

def advanceSpace (c : Char) (st : LexState) : LexState :=
  { st with pos := nextPos c st.pos, bol := c = '\n' || st.bol }

def addColumns (count : Int) (pos : SrcPos) : SrcPos :=
  ⟨pos.line, pos.col + count⟩

def advanceMany (s : List Char) (st : LexState) : LexState :=
  s.foldl (fun st c => advance c st) st

def advancePunct (text : List Char) (st : LexState) : LexState :=
  { st with pos := addColumns text.length st.pos, bol := false }

-- The predicates of all callers accept neither spaces nor newlines.
def takeWhileColumns (predicate : Char → Bool) (st : LexState) : List Char × LexState :=
  match st.input.span predicate with
  | ([],   _)    => ([], st)
  | (text, rest) => (text, advancePunct text { st with input := rest })

def takeUntilNewline.go (cur : LexState) (acc : List Char) : List Char → List Char × LexState
  | []         => (acc.reverse, { cur with input := [] })
  | '\n' :: cs => (acc.reverse, advance '\n' { cur with input := cs })
  | c :: cs    => go (advance c cur) (c :: acc) cs

def takeUntilNewline (st : LexState) : List Char × LexState :=
  takeUntilNewline.go st [] st.input

def isDirectiveStart (st : LexState) (c : Char) : Bool :=
  st.bol && c = '#'

def lexDirective (st : LexState) : Except LexError (Token × LexState) :=
  let (text, st') := takeUntilNewline st
  .ok (⟨⟨st.pos, st'.pos⟩, .directive (String.ofList text)⟩, st')

def startsLineComment (input : List Char) : Bool :=
  ['/', '/'].isPrefixOf input

def startsBlockComment (input : List Char) : Bool :=
  ['/', '*'].isPrefixOf input

def skipLineComment (st : LexState) : LexState :=
  (takeUntilNewline st).2

def skipBlockComment.go (start : SrcPos) (cur : LexState) : List Char → Except LexError LexState
  | []               => .error ⟨start, "unterminated block comment"⟩
  | '*' :: '/' :: cs => .ok (advanceMany ['*', '/'] { cur with input := cs })
  | c :: cs          => go start (advance c cur) cs

def skipBlockComment (st : LexState) : Except LexError LexState :=
  let input := st.input.drop 2
  match skipBlockComment.go st.pos (advanceMany ['/', '*'] { st with input := input }) input with
  | .error err => .error err
  | .ok st'    => .ok { st' with bol := st.bol }

def takeIdent : LexState → List Char × LexState :=
  takeWhileColumns isIdentChar

def lexIdent (st : LexState) : Token × LexState :=
  let (text, st') := takeIdent st
  (⟨⟨st.pos, st'.pos⟩, .ident (String.ofList text)⟩, st')

def isNumberSuffix (c : Char) : Bool :=
  c ∈ ['u', 'U', 'l', 'L', 'f', 'F']

def isFloatSuffix (c : Char) : Bool :=
  c ∈ ['f', 'F', 'l', 'L']

def hasFloatSuffix (text : List Char) : Bool :=
  text.any fun c => c = 'f' || c = 'F'

def hasInvalidOctalDigit : List Char → Bool
  | '0' :: c :: rest => !(c :: rest).all isOctalDigit
  | _                => false

def takeFractionOf (digit : Char → Bool) (st : LexState) : List Char × LexState :=
  match st.input with
  | '.' :: '.' :: _ => ([], st)
  | '.' :: rest     =>
    let (digits, st₁) := takeWhileColumns digit (advance '.' { st with input := rest })
    ('.' :: digits, st₁)
  | _               => ([], st)

def takeHexFraction : LexState → List Char × LexState :=
  takeFractionOf isHexDigit

def takeFraction : LexState → List Char × LexState :=
  takeFractionOf isDigitChar

def takeExponentSign (st : LexState) : List Char × LexState :=
  match st.input with
  | c :: rest =>
    if c = '+' || c = '-' then ([c], advance c { st with input := rest }) else ([], st)
  | []        => ([], st)

def takeExponent (markers : List Char) (st : LexState) : List Char × LexState :=
  match st.input with
  | c :: rest =>
    if c ∈ markers then
      let (signText, st₁) := takeExponentSign (advance c { st with input := rest })
      let (digits, st₂) := takeWhileColumns isDigitChar st₁
      if digits.isEmpty then ([], st) else (c :: signText ++ digits, st₂)
    else ([], st)
  | []        => ([], st)

def takeHexNumber (mark : List Char) (rest : List Char) (st : LexState) :
    Except LexError (List Char × NumberClass × LexState) :=
  let st₀ := advanceMany mark { st with input := rest }
  let (digits, st₁) := takeWhileColumns isHexDigit st₀
  let (fraction, st₂) := takeHexFraction st₁
  let (exponentText, st₃) := takeExponent ['p', 'P'] st₂
  let integral := fraction.isEmpty && exponentText.isEmpty
  let (suffix, st₄) := takeWhileColumns (if integral then isIntSuffix else isFloatSuffix) st₃
  if digits.isEmpty && fraction.isEmpty then
    .error ⟨st.pos, "hexadecimal constant requires at least one digit: " ++
      String.ofList (mark ++ suffix)⟩
  else
    .ok (mark ++ digits ++ fraction ++ exponentText ++ suffix, if integral then .int else .float, st₄)

def takeDecimalNumber (st : LexState) : Except LexError (List Char × NumberClass × LexState) :=
  let (digits, st₁) := takeWhileColumns isDigitChar st
  let (fraction, st₂) := takeFraction st₁
  let (exponentText, st₃) := takeExponent ['e', 'E'] st₂
  let (suffix, st₄) := takeWhileColumns isNumberSuffix st₃
  let isFloat := !fraction.isEmpty || !exponentText.isEmpty || hasFloatSuffix suffix
  if !isFloat && hasInvalidOctalDigit digits then
    .error ⟨st.pos, "invalid digit in octal constant: " ++ String.ofList digits⟩
  else
    .ok (digits ++ fraction ++ exponentText ++ suffix, if isFloat then .float else .int, st₄)

def takeNumber (st : LexState) : Except LexError (List Char × NumberClass × LexState) :=
  match st.input with
  | '0' :: 'x' :: rest => takeHexNumber ['0', 'x'] rest st
  | '0' :: 'X' :: rest => takeHexNumber ['0', 'X'] rest st
  | _                  => takeDecimalNumber st

def lexNumber (st : LexState) : Except LexError (Token × LexState) :=
  match takeNumber st with
  | .error err => .error err
  | .ok (text, cls, st') =>
    let kind := match cls with
      | .int   => TokenKind.int
      | .float => TokenKind.float
    .ok (⟨⟨st.pos, st'.pos⟩, kind (String.ofList text)⟩, st')

def quotedName (quote : Char) : String :=
  if quote = '"' then "string literal" else "character literal"

def charLiteralBody : List Char → List Char
  | '\'' :: rest => dropClosingQuote rest
  | text         => text

def validCharBody : List Char → Bool
  | []           => false
  | '\\' :: rest => !rest.isEmpty
  | [_]          => true
  | _            => false

def lexQuoted.go (quote : Char) (mkKind : String → TokenKind) (start : SrcPos)
    (cur : LexState) (acc : List Char) : List Char → Except LexError (Token × LexState)
  | []      => .error ⟨start, "unterminated " ++ quotedName quote⟩
  | c :: cs =>
    if c = quote then
      let st' := advance c { cur with input := cs }
      let text := (c :: acc).reverse
      if quote = '\'' && !validCharBody (charLiteralBody text) then
        .error ⟨start, "invalid character constant: " ++ String.ofList text⟩
      else .ok (⟨⟨start, st'.pos⟩, mkKind (String.ofList text)⟩, st')
    else if c = '\\' then
      match cs with
      | []        => .error ⟨start, "unterminated " ++ quotedName quote⟩
      | e :: rest => go quote mkKind start (advance e (advance c cur)) (e :: c :: acc) rest
    else if c = '\n' then .error ⟨cur.pos, "newline in " ++ quotedName quote⟩
    else go quote mkKind start (advance c cur) (c :: acc) cs

def lexQuoted (quote : Char) (mkKind : String → TokenKind) (st : LexState) :
    Except LexError (Token × LexState) :=
  lexQuoted.go quote mkKind st.pos (advance quote st) [quote] (st.input.drop 1)

-- The longest match comes first.
def punctuators : List String :=
  ["<<=", ">>=", "...", "++", "--", "->", "+=", "-=", "*=", "/=", "%=", "&=", "|=", "^=", "==", "!=",
    "<=", ">=", "&&", "||", "<<", ">>", "##", "\x7b", "\x7d", "[", "]", "(", ")", ".", "&", "*", "+", "-",
    "~", "!", "/", "%", "<", ">", "^", "|", "?", ":", ";", "=", ",", "#"]

def lexPunct (st : LexState) : Option (Token × LexState) :=
  (punctuators.find? (·.toList.isPrefixOf st.input)).map fun text =>
    let st' := advancePunct text.toList { st with input := st.input.drop text.toList.length }
    (⟨⟨st.pos, st'.pos⟩, .punct text⟩, st')

-- Each token consumes at least one character, so the length of the input bounds the number of
-- iterations.
def lexC.go : (bound : Nat) → LexState → List Token → Except LexError (List Token)
  | 0,         _,  acc => .ok acc.reverse
  | bound + 1, st, acc =>
    match st.input with
    | []      => .ok acc.reverse
    | c :: cs =>
      let emit := fun (result : Token × LexState) => go bound result.2 (result.1 :: acc)
      if isSpaceChar c then go bound (advanceSpace c { st with input := cs }) acc
      else if isDirectiveStart st c then lexDirective st >>= emit
      else if startsLineComment st.input then go bound (skipLineComment st) acc
      else if startsBlockComment st.input then
        skipBlockComment st >>= fun st' => go bound st' acc
      else if isIdentStart c then emit (lexIdent st)
      else if isDigitChar c then lexNumber st >>= emit
      else if c = '\'' then lexQuoted '\'' .char st >>= emit
      else if c = '"' then lexQuoted '"' .string st >>= emit
      else match lexPunct st with
        | some result => emit result
        | none        => .error ⟨st.pos, "unexpected character: " ++ c.toString⟩

def lexC (source : String) : Except LexError (List Token) :=
  lexC.go source.toList.length ⟨source.toList, ⟨1, 1⟩, true⟩ []

end Hcc
