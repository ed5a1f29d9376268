import Hcc.Ast.Basic
import Hcc.ConstExpr.Basic
import Hcc.SymbolTable.ScopeMap

namespace Hcc

structure ParseError where
  pos : SrcPos
  msg : String

-- Typedefs, enumerators, objects and functions share the ordinary namespace of C.
inductive ParserBinding
  | type     (type : CType)
  | constant (value : Constant)
  | ordinary

structure ParserEnv where
  bindings  : ScopeMap ParserBinding
  constants : List (String × Constant)
  bits      : Nat

abbrev Parser := P ParserEnv Token ParseError

def paramTypes : List Param → List CType :=
  List.map Param.type

namespace Parser

def builtinTypeAliases : List (String × CType) := [
  ("FILE", .struct "FILE"),
  ("FUNCTION", .long),
  ("size_t", .named "size_t"),
  ("ssize_t", .named "ssize_t"),
  ("time_t", .named "time_t"),
  ("ptrdiff_t", .named "ptrdiff_t"),
  ("intptr_t", .named "intptr_t"),
  ("uintptr_t", .named "uintptr_t"),
  ("int8_t", .named "int8_t"),
  ("int16_t", .named "int16_t"),
  ("int32_t", .named "int32_t"),
  ("int64_t", .named "int64_t"),
  ("uint8_t", .named "uint8_t"),
  ("uint16_t", .named "uint16_t"),
  ("uint32_t", .named "uint32_t"),
  ("uint64_t", .named "uint64_t"),
  ("va_list", .ptr .void),
  ("__builtin_va_list", .ptr .void),
  ("jmp_buf", .ptr .void)
]

def builtinTypeEnv : List (String × CType) → ScopeMap ParserBinding
  | []                 => scopeMapEmpty
  | (name, ty) :: rest => scopeMapInsert name (.type ty) (builtinTypeEnv rest)

def initialParserEnv (bits : Nat) : ParserEnv :=
  ⟨builtinTypeEnv builtinTypeAliases, [], bits⟩

def lookupParserType (name : String) : Parser (Option CType) := do
  match scopeMapLookup name (← pEnv).bindings with
  | some (.type ty) => return some ty
  | _               => return none

def bindParserName (name : String) (binding : ParserBinding) : Parser Unit := do
  if name ≠ "" then
    let env ← pEnv
    let remaining := match scopeMapLookup name env.bindings with
      | some (.constant _) => env.constants.filter (·.1 ≠ name)
      | _                  => env.constants
    let constants := match binding with
      | .constant value => (name, value) :: remaining
      | _               => remaining
    pSetEnv { env with bindings := scopeMapInsert name binding env.bindings, constants }

def bindParserType (name : String) (ty : CType) : Parser Unit :=
  bindParserName name (.type ty)

def bindParserOrdinary (name : String) : Parser Unit :=
  bindParserName name .ordinary

def lookupParserConstant (name : String) : Parser (Option Constant) := do
  match scopeMapLookup name (← pEnv).bindings with
  | some (.constant value) => return some value
  | _                      => return none

def bindParserConstant (name : String) (value : Constant) : Parser Unit :=
  bindParserName name (.constant value)

def enterParserScope (env : ParserEnv) : ParserEnv :=
  { env with bindings := scopeMapEnter env.bindings }

def withParserScope (p : Parser α) : Parser α :=
  pLocalEnv enterParserScope (fun outer _ => outer) p

def unexpectedEof : ParseError :=
  ⟨⟨1, 1⟩, "unexpected end of input"⟩

def parseErrorAt (tok : Token) (msg : String) : ParseError :=
  ⟨tok.span.start, msg ++ " near " ++ (tokenText tok.kind).quote⟩

def failAt (tok : Token) (msg : String) : Parser α :=
  pFail (parseErrorAt tok msg)

def advanceToken : Parser Unit :=
  pSkip unexpectedEof

def peekMaybe : Parser (Option Token) :=
  pPeekMaybe

def peek : Parser Token := do
  match ← peekMaybe with
  | none     => pFail unexpectedEof
  | some tok => return tok

-- The kind of the next token.
def peekKind : Parser (Option TokenKind) := do
  return (← peekMaybe).map Token.kind

def eat (kind : TokenKind) : Parser Bool :=
  pRaw fun env toks =>
    match toks with
    | tok :: rest =>
      if tok.kind = kind then .consumed <| .ok true env rest else .unconsumed <| .ok false env toks
    | [] => .unconsumed <| .ok false env toks

def eatPunct (s : String) : Parser Bool :=
  eat (.punct s)

def eatIdent (s : String) : Parser Bool :=
  eat (.ident s)

def needPunct (s : String) : Parser Unit := do
  if ← eatPunct s then return ()
  else failAt (← peek) ("expected " ++ s.quote)

def needIdent : Parser String := do
  let tok ← peek
  match tok.kind with
  | .ident s => do advanceToken; return s
  | _        => failAt tok "expected identifier"

def optionalIdent : Parser String := do
  match ← peekKind with
  | some (.ident s) => do advanceToken; return s
  | _               => return ""

def builtinTypeNames : List String :=
  ["void", "_Bool", "int", "char", "signed", "unsigned", "short", "long", "float", "double",
   "struct", "union", "enum"]

def storageAndTypeQualifiers : List String :=
  ["const", "volatile", "static", "extern", "register", "inline", "auto", "restrict", "_Noreturn",
   "_Atomic"]

def unsupportedQualifiers : List String :=
  ["_Thread_local", "__thread", "_Alignas", "_Generic"]

def asmLabelNames : List String :=
  ["asm", "__asm", "__asm__"]

def startsType (tok : Token) : Bool :=
  match tok.kind with
  | .ident name => name ∈ builtinTypeNames ++ storageAndTypeQualifiers ++ ["typedef"]
  | _           => false

def parserEnvHasType (name : String) (env : ParserEnv) : Bool :=
  match scopeMapLookup name env.bindings with
  | some (.type _) => true
  | _              => false

def tokenStartsTypeInEnv (env : ParserEnv) (tok : Token) : Bool :=
  match tok.kind with
  | .ident name => startsType tok || parserEnvHasType name env
  | _           => false

def isKnownTypeNameP (name : String) : Parser Bool := do
  return (← lookupParserType name).isSome

def tokenStartsType (tok : Token) : Parser Bool :=
  match tok.kind with
  | .ident name => if startsType tok then return true else isKnownTypeNameP name
  | _           => return false

def nextStartsType : Parser Bool := do
  match ← peekMaybe with
  | some tok => tokenStartsType tok
  | none     => return false

def skipBalanced (opening closing : String) : (fuel : Nat) → (depth : Int) → Parser Unit
  | 0,        _     => outOfFuelP
  | fuel + 1, depth => do
    if depth ≤ 0 then return ()
    else
      let tok ← peek
      advanceToken
      let depth' :=
        if tok.kind = .punct opening then depth + 1
        else if tok.kind = .punct closing then depth - 1
        else depth
      skipBalanced opening closing fuel depth'

def skipOptionalBalancedParens (fuel : Nat) : Parser Unit := do
  if ← eatPunct "(" then skipBalanced "(" ")" fuel 1

def skipAttributes : (fuel : Nat) → Parser Unit
  | 0        => outOfFuelP
  | fuel + 1 => do
    match ← peekKind with
    | some (.ident name) =>
      if name ∈ asmLabelNames || name = "__attribute__" then
        advanceToken
        skipOptionalBalancedParens fuel
        skipAttributes fuel
      else if name = "__extension__" then
        advanceToken
        skipAttributes fuel
    | _ => return ()

def skipQualifiers : (fuel : Nat) → Parser Unit
  | 0        => outOfFuelP
  | fuel + 1 => do
    match ← peekKind with
    | some (.ident name) =>
      if name ∈ unsupportedQualifiers then failAt (← peek) (name ++ " is not supported")
      else if name ∈ storageAndTypeQualifiers then
        advanceToken
        skipQualifiers fuel
      else if name ∈ ["__attribute__", "__extension__"] then
        skipAttributes fuel
        skipQualifiers fuel
    | _ => return ()

def pointerStars : (fuel : Nat) → (ty : CType) → Parser CType
  | 0,        _  => outOfFuelP
  | fuel + 1, ty => do
    if ← eatPunct "*" then
      skipQualifiers fuel
      pointerStars fuel (.ptr ty)
    else return ty

end Parser
end Hcc
