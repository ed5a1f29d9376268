import Hcc.Parser.Grammar

namespace Hcc.Parser

section Statements

variable (g : Grammar) (n : Nat)

def needIdentValue (expected : String) : Parser Unit := do
  let tok ← peek
  match tok.kind with
  | .ident s =>
    if s = expected then advanceToken else failAt tok ("expected " ++ expected.quote)
  | _ => failAt tok ("expected " ++ expected.quote)

def peekSecondPunct (punct : String) : Parser Bool :=
  pRaw fun env toks =>
    match toks with
    | _ :: ⟨_, .punct p⟩ :: _ => .unconsumed <| .ok (p = punct) env toks
    | _                       => .unconsumed <| .ok false env toks

def identifierStartsDeclaration : Parser Bool :=
  pRaw fun env toks =>
    match toks with
    | ⟨_, .ident name⟩ :: _ =>
      .unconsumed <| .ok (name ∈ builtinTypeNames ++ storageAndTypeQualifiers ++ ["typedef"] ||
        parserEnvHasType name env) env toks
    | _ => .unconsumed <| .ok false env toks

def typedefItemsTail (ty0 : CType) : (fuel : Nat) → Parser (List (String × CType))
  | 0        => outOfFuelP
  | fuel + 1 => do
    if ← eatPunct ";" then return []
    else
      needPunct ","
      let item ← typedefItem g n ty0
      return item :: (← typedefItemsTail ty0 fuel)

def typedefDecl : Parser TopDecl := do
  let ty0 ← g.ctype
  let first ← typedefItem g n ty0
  let rest ← typedefItemsTail g n ty0 n
  return .typeDecl ((first :: rest).map Prod.snd)

def declarationItemsTail (ty0 : CType) : (fuel : Nat) → Parser (List Decl)
  | 0        => outOfFuelP
  | fuel + 1 => do
    if ← eatPunct ";" then return []
    else
      needPunct ","
      let item ← declarationItem g n ty0
      return item :: (← declarationItemsTail ty0 fuel)

def declStmt : List Decl → Stmt
  | [decl] => .sDecl decl
  | decls  => .sDecls decls

def localPrototype (ty0 : CType) : Parser Unit := do
  let _ ← pointerStars n ty0
  let name ← needIdent
  needPunct "("
  let _ ← g.parameters
  skipAttributes n
  bindParserOrdinary name
  needPunct ";"

-- A local prototype is parsed and dropped.
def parseDeclStmt : Parser Stmt := do
  let ty0 ← g.ctype
  if ← eatPunct ";" then return .sExpr (.int ['0'])
  else
    match ← pOptional (pTry (localPrototype g n ty0)) with
    | some _ => return .sExpr (.int ['0'])
    | none   =>
      let first ← declarationItem g n ty0
      let rest ← declarationItemsTail g n ty0 n
      return declStmt (first :: rest)

def typedefStmt : Parser Stmt := do
  let _ ← typedefDecl g n
  return .sTypedef

def parseExprStmt : Parser Stmt := do
  let e ← expr g
  needPunct ";"
  return .sExpr e

def parseGoto : Parser Stmt := do
  let name ← needIdent
  needPunct ";"
  return .sGoto name

def parseReturn : Parser Stmt := do
  if ← eatPunct ";" then return .sReturn none
  else
    let e ← expr g
    needPunct ";"
    return .sReturn (some e)

def parseCase : Parser Stmt := do
  let value ← expr g
  needPunct ":"
  return .sCase value

def optionalExprUntil (punct : String) : Parser (Option Expr) := do
  if ← eatPunct punct then return none
  else
    let e ← expr g
    needPunct punct
    return some e

def forInit : Parser ForInit := do
  if ← eatPunct ";" then return .noInit
  else
    let tok ← peek
    if ← tokenStartsType tok then
      let ty0 ← g.ctype
      let first ← declarationItem g n ty0
      let rest ← declarationItemsTail g n ty0 n
      return .decls (first :: rest)
    else
      let initExpr ← expr g
      needPunct ";"
      return .expr initExpr

section

variable (stmt : Parser Stmt)

def compound : Parser (List Stmt) := do
  needPunct "\x7b"
  withParserScope (pManyUntil (eatPunct "\x7d") stmt n)

-- A label and the statement after it are one body.
def stmtAsBlock : Parser (List Stmt) := withParserScope do
  let tok ← peek
  match tok.kind with
  | .punct "\x7b" => return [.sBlock (← compound n stmt)]
  | _ =>
    let first ← stmt
    match first with
    | .sLabel _ => return [first, ← stmt]
    | _         => return [first]

def parseIf : Parser Stmt := withParserScope do
  needPunct "("
  let cond ← expr g
  needPunct ")"
  let yes ← stmtAsBlock n stmt
  let hasElse ← eatIdent "else"
  let no ← (if hasElse then stmtAsBlock n stmt else pure [] : Parser _)
  return .sIf cond yes no

def parseWhile : Parser Stmt := withParserScope do
  needPunct "("
  let cond ← expr g
  needPunct ")"
  return .sWhile cond (← stmtAsBlock n stmt)

def parseDoWhile : Parser Stmt := withParserScope do
  let body ← stmtAsBlock n stmt
  needIdentValue "while"
  needPunct "("
  let cond ← expr g
  needPunct ")"
  needPunct ";"
  return .sDoWhile body cond

def parseFor : Parser Stmt := withParserScope do
  needPunct "("
  let initClause ← forInit g n
  let cond ← optionalExprUntil g ";"
  let stepExpr ← optionalExprUntil g ")"
  let body ← stmtAsBlock n stmt
  return .sFor initClause cond stepExpr body

def parseSwitch : Parser Stmt := withParserScope do
  needPunct "("
  let value ← expr g
  needPunct ")"
  return .sSwitch value (← stmtAsBlock n stmt)

end

def stmt : (fuel : Nat) → Parser Stmt
  | 0        => outOfFuelP
  | fuel + 1 => do
    let tok ← peek
    let tokIsType ← tokenStartsType tok
    match tok.kind with
    | .ident "typedef"  => do advanceToken; typedefStmt g n
    | .ident "return"   => do advanceToken; parseReturn g
    | .ident "if"       => do advanceToken; parseIf g n (stmt fuel)
    | .ident "while"    => do advanceToken; parseWhile g n (stmt fuel)
    | .ident "do"       => do advanceToken; parseDoWhile g n (stmt fuel)
    | .ident "for"      => do advanceToken; parseFor g n (stmt fuel)
    | .ident "switch"   => do advanceToken; parseSwitch g n (stmt fuel)
    | .ident "case"     => do advanceToken; parseCase g
    | .ident "default"  => do advanceToken; needPunct ":"; return .sDefault
    | .ident "break"    => do advanceToken; needPunct ";"; return .sBreak
    | .ident "continue" => do advanceToken; needPunct ";"; return .sContinue
    | .ident "goto"     => do advanceToken; parseGoto
    | .punct ";"        => do advanceToken; return .sExpr (.int ['0'])
    | .ident name       => do
      if ← peekSecondPunct ":" then
        advanceToken
        needPunct ":"
        return .sLabel name
      else if ← identifierStartsDeclaration then parseDeclStmt g n
      else parseExprStmt g
    | .punct "\x7b"     => do
      if tokIsType then parseDeclStmt g n else return .sBlock (← compound n (stmt fuel))
    | _                 => if tokIsType then parseDeclStmt g n else parseExprStmt g

end Statements

section TopLevel

variable (g : Grammar) (n : Nat)

def takeStaticAssertExpr (depth : Int) (acc : List Token) :
    List Token → Option (List Token × List Token)
  | []          => none
  | tok :: rest =>
    match tok.kind with
    | .punct "(" => takeStaticAssertExpr (depth + 1) (tok :: acc) rest
    | .punct ")" =>
      if depth = 0 then some (acc.reverse, tok :: rest)
      else takeStaticAssertExpr (depth - 1) (tok :: acc) rest
    | .punct "," =>
      if depth = 0 then some (acc.reverse, tok :: rest)
      else takeStaticAssertExpr depth (tok :: acc) rest
    | _ => takeStaticAssertExpr depth (tok :: acc) rest

def skipOptionalStaticAssertMessage : Parser Unit := do
  if ← eatPunct "," then
    let tok ← peek
    match tok.kind with
    | .string _ => advanceToken
    | _         => failAt tok "expected string literal in _Static_assert"

def parseStaticAssert : Parser TopDecl := do
  needPunct "("
  let toks ← pRaw fun env tokens =>
    match takeStaticAssertExpr 0 [] tokens with
    | some (taken, rest) => .consumed <| .ok taken env rest
    | none               => .unconsumed <| .ok [] env tokens
  let env ← pEnv
  match parseTypedConstExprTarget env.bits env.constants toks with
  | none                         => outOfFuelP
  | some (.ok (value, []))       => do
    if constantTrue value then
      skipOptionalStaticAssertMessage
      needPunct ")"
      needPunct ";"
      return .typeDecl []
    else failAt (← peek) "_Static_assert failed"
  | some (.ok (_, tok :: _))     => failAt tok "unexpected tokens in _Static_assert expression"
  | some (.error msg)            => do
    failAt (← peek) ("invalid _Static_assert expression: " ++ msg)

def aggregateKeyword : Parser Bool := do
  let tok ← peek
  match tok.kind with
  | .ident "struct" => do advanceToken; return false
  | .ident "union"  => do advanceToken; return true
  | _               => failAt tok "expected aggregate declaration"

def aggregateBody : Parser (List Field) := do
  needPunct "\x7b"
  return (← pManyUntil (eatPunct "\x7d") (fieldDecl g n) n).flatten

def standaloneAggregateDecl : Parser TopDecl := do
  let isUnion ← aggregateKeyword
  let tag ← optionalIdent
  let fields ← aggregateBody g n
  needPunct ";"
  return .structDecl isUnion tag fields

def simpleParameterBound : Expr → Bool
  | .int _             => true
  | .float _           => true
  | .char _            => true
  | .var _             => true
  | .sizeofType _      => true
  | .sizeofExpr _      => true
  | .cast _ e          => simpleParameterBound e
  | .unary op e        => op ∈ ["+", "-", "!", "~"] && simpleParameterBound e
  | .binary _ a b      => simpleParameterBound a && simpleParameterBound b
  | .cond a b c        => simpleParameterBound a && simpleParameterBound b && simpleParameterBound c
  | _                  => false

def checkDefinitionParameter.checkBounds : CType → Parser Unit
  | .array inner bound => do
    match bound with
    | some value =>
      if simpleParameterBound value then checkBounds inner
      else
        let tok ← peek
        failAt tok "side-effecting or complex array parameter bounds are not supported in definitions"
    | none => checkBounds inner
  | _ => return ()

-- The bound of an array parameter is not evaluated on entry, so it must have no effects.
def checkDefinitionParameter (param : Param) : Parser Unit :=
  checkDefinitionParameter.checkBounds param.type

def checkDefinitionParameters : List Param → Parser Unit
  | []              => return ()
  | param :: params => do
    checkDefinitionParameter param
    checkDefinitionParameters params

def globalDecl (isExtern : Bool) (decls : List Decl) : TopDecl :=
  if isExtern && decls.all (·.init.isNone) then .externGlobals (decls.map fun d => (d.type, d.name))
  else match decls with
    | [decl] => .global decl
    | _      => .globals decls

def leadingExternQualifier.go : List Token → Bool
  | ⟨_, .ident name⟩ :: rest =>
    name = "extern" || (name ∈ storageAndTypeQualifiers && go rest)
  | _ => false

def leadingExternQualifier : Parser Bool :=
  pRaw fun env toks => .unconsumed <| .ok (leadingExternQualifier.go toks) env toks

-- The scope of the parameters extends over the body of the function.
def functionDecl (ty : CType) (name : String) : Parser TopDecl := withParserScope do
  let params ← parametersInScope g n
  skipAttributes n
  if ← eatPunct ";" then return .prototype ty name (adjustParameters params)
  else
    checkDefinitionParameters params
    return .function ty name (adjustParameters params) (← compound n (stmt g n n))

def topDeclNoStruct : Parser TopDecl := do
  let isExtern ← leadingExternQualifier
  let ty0 ← g.ctype
  if ← eatPunct ";" then return .typeDecl [ty0]
  else
    let (ty, name) ← declarator g n n ty0
    if ← eatPunct "(" then
      let decl ← functionDecl g n ty name
      bindParserOrdinary name
      return decl
    else
      bindParserOrdinary name
      let init ← pOptional do
        let _ ← eatPunct "="
        initializerExpr g n n
      let rest ← declarationItemsTail g n ty0 n
      return globalDecl isExtern (⟨ty, name, init⟩ :: rest)

def topDeclNoTypedef : Parser TopDecl := do
  match ← pOptional (pTry (standaloneAggregateDecl g n)) with
  | some decl => return decl
  | none      => topDeclNoStruct g n

def topDecl : Parser TopDecl := do
  if ← eatPunct ";" then return .typeDecl []
  else if ← eatIdent "_Static_assert" then parseStaticAssert
  else if ← eatIdent "typedef" then typedefDecl g n
  else topDeclNoTypedef g n

def topDecls : (fuel : Nat) → Parser (List TopDecl)
  | 0        => outOfFuelP
  | fuel + 1 => do
    match ← peekMaybe with
    | none   => return []
    | some _ =>
      let decl ← topDecl g n
      return decl :: (← topDecls fuel)

end TopLevel

-- The fuel for a list of tokens.
def parserFuel (toks : List Token) : Nat :=
  2 * toks.length + 8

def parseProgramTarget (bits : Nat) (toks : List Token) :
    Option (Except ParseError (List TopDecl)) :=
  let n := parserFuel toks
  (parseRest (topDecls (grammar n) n n) (initialParserEnv bits) toks).map fun result => do
    match ← result with
    | (decls, [])   => return decls
    | (_, tok :: _) => throw (parseErrorAt tok "trailing tokens")

def parseProgram (toks : List Token) : Option (Except ParseError (List TopDecl)) :=
  parseProgramTarget 64 toks

end Hcc.Parser
