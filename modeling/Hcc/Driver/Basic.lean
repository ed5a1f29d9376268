import Hcc.Preprocessor.Conditional

namespace Hcc

def spliceContinuations : List Char → List Char
  | []                        => []
  | '\\' :: c :: '\n' :: rest =>
    if c = '\x0d' then spliceContinuations rest else '\\' :: c :: '\n' :: spliceContinuations rest
  | '\\' :: '\n' :: rest      => spliceContinuations rest
  | c :: rest                 => c :: spliceContinuations rest

mutual

def stripCommentNormal : List Char → List Char
  | []                 => []
  | '/' :: '/' :: rest => stripLineComment rest
  | '/' :: '*' :: rest => stripBlockComment rest
  | '"' :: rest        => '"' :: stripQuotedLiteral '"' rest
  | '\'' :: rest       => '\'' :: stripQuotedLiteral '\'' rest
  | c :: rest          => c :: stripCommentNormal rest

def stripLineComment : List Char → List Char
  | []           => []
  | '\n' :: rest => '\n' :: stripCommentNormal rest
  | _ :: rest    => stripLineComment rest

def stripBlockComment : List Char → List Char
  | []                 => []
  | '*' :: '/' :: rest => ' ' :: stripCommentNormal rest
  | '\n' :: rest       => '\n' :: stripBlockComment rest
  | _ :: rest          => stripBlockComment rest

def stripQuotedLiteral : (quote : Char) → List Char → List Char
  | _,     []                => []
  | quote, '\\' :: c :: rest => '\\' :: c :: stripQuotedLiteral quote rest
  | quote, c :: rest         =>
    if c = quote then c :: stripCommentNormal rest else c :: stripQuotedLiteral quote rest

end

def stripComments : List Char → List Char :=
  stripCommentNormal

def showPos (pos : SrcPos) : String :=
  toString pos.line ++ ":" ++ toString pos.col

def lexPlainSource (source : String) : Except String (List Token) :=
  match lexC (.ofList (stripComments (spliceContinuations source.toList))) with
  | .error e => .error (showPos e.pos ++ ": " ++ e.message)
  | .ok toks => .ok toks

def renderToken (tok : Token) (rest : String) : String :=
  tokenText tok.kind ++ " " ++ rest

-- The output for a preprocessed program.
def renderTokens (toks : List Token) : String :=
  toks.foldr renderToken "\n"

-- The program `out` is the result of preprocessing.
def Outputs (source : String) (out : List Token) : Prop :=
  ∃ toks fuel, lexPlainSource source = .ok toks ∧ preprocess fuel toks = .done (.ok out)

-- The output for a program is lexed to tokens of the same kinds and spellings.
def Relexes (out : List Token) : Prop :=
  ∃ toks, lexPlainSource (renderTokens out) = .ok toks ∧ toks.map Token.kind = out.map Token.kind

end Hcc
