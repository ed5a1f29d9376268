import Hcc.Literal.Constant
import Hcc.Parser.Basic

namespace Hcc

-- The parts of the grammar that are mutually recursive.
structure Grammar where
  expression : (minPrec : Int) → Parser Expr
  ctype      : Parser CType
  parameters : Parser (List Param)

inductive Assoc
  | left
  | right
deriving DecidableEq, Repr

namespace Parser

def binop (op : String) : Option (Int × Assoc) :=
  if op = "," then some (0, .left)
  else if op ∈ ["=", "+=", "-=", "*=", "/=", "%=", "<<=", ">>=", "&=", "^=", "|="] then
    some (1, .right)
  else (binopArith op).map (·, .left)

def assignNode (op : String) (lhs rhs : Expr) : Expr :=
  match op with
  | "="   => .assign lhs rhs
  | "+="  => .compoundAssign "+" lhs rhs
  | "-="  => .compoundAssign "-" lhs rhs
  | "*="  => .compoundAssign "*" lhs rhs
  | "/="  => .compoundAssign "/" lhs rhs
  | "%="  => .compoundAssign "%" lhs rhs
  | "<<=" => .compoundAssign "<<" lhs rhs
  | ">>=" => .compoundAssign ">>" lhs rhs
  | "&="  => .compoundAssign "&" lhs rhs
  | "^="  => .compoundAssign "^" lhs rhs
  | "|="  => .compoundAssign "|" lhs rhs
  | _     => .binary op lhs rhs

-- A token for an integer has no sign, so a negative constant is spelled by a subtraction.
def parserConstantExpr (value : Constant) : Expr :=
  match constantToIntChecked value with
  | some n =>
    if n < 0 then .binary "-" (.unary "-" (.int (toString (-(n + 1))).toList)) (.int ['1'])
    else .int (toString n).toList
  | none =>
    let ty : CType :=
      if value.size ≤ 4 then .unsigned
      else if value.unsigned then .unsignedLongLong
      else .longLong
    let digits := "0123456789abcdef".toList
    let hexByte (byte : Int) : List Char :=
      [digits.getD (byte / 16).toNat '0', digits.getD (byte % 16).toNat '0']
    .cast ty (.int ("0x".toList ++ value.bytes.reverse.flatMap hexByte ++ "ULL".toList))

def hexDigitChar (value : Int) : Char :=
  if value < 10 then Char.ofNat ('0'.toNat + value).toNat else Char.ofNat ('a'.toNat + value - 10).toNat

def hexPair (value : Int) : List Char :=
  [hexDigitChar (value / 16 % 16), hexDigitChar (value % 16)]

def hexEscape (value : Int) : List Char :=
  '\\' :: 'x' :: hexPair value

def literalContentBytes (text : List Char) : List Int :=
  (stringBytes text).dropLast

def joinStrings (strings : List (List Char)) : List Char :=
  '"' :: (strings.flatMap literalContentBytes).flatMap hexEscape ++ ['"']

def needString : Parser (List Char) := do
  let tok ← peek
  match tok.kind with
  | .string s => do advanceToken; return s.toList
  | _         => failAt tok "expected string literal"

def stringLiteral (fuel : Nat) : Parser (List Char) := do
  let first ← needString
  let rest ← pMany needString fuel
  return joinStrings (first :: rest)

def postfixContinues (toks : List Token) : Bool :=
  match toks with
  | ⟨_, .punct p⟩ :: _ => p ∈ ["(", "[", ".", "->", "++", "--"]
  | _                  => false

def adjustParameterType (ty : CType) : CType :=
  match ty with
  | .array inner _ => .ptr inner
  | .func ..       => .ptr ty
  | _              => ty

-- Only the outermost array is adjusted.
def adjustParameters : List Param → List Param :=
  List.map fun p => { p with type := adjustParameterType p.type }

def functionSuffixType (ty : CType) (params : List Param) : CType :=
  match ty with
  | .ptr inner => .ptr (.func inner (paramTypes params))
  | _          => .func ty (paramTypes params)

section Grammar

variable (g : Grammar) (n : Nat)

def expr : Parser Expr :=
  g.expression 0

def assignExpr : Parser Expr :=
  g.expression 1

def typeName : Parser CType := do
  pointerStars n (← g.ctype)

def arguments : Parser (List Expr) := do
  if ← eatPunct ")" then return []
  else
    let first ← assignExpr g
    let rest ← pMany (do needPunct ","; assignExpr g) n
    needPunct ")"
    return first :: rest

def postfixExpr : (fuel : Nat) → (base : Expr) → Parser Expr
  | 0,        _    => outOfFuelP
  | fuel + 1, base => do
    match ← peekKind with
    | some (.punct "(") => do
      advanceToken
      postfixExpr fuel (.call base (← arguments g n))
    | some (.punct "[") => do
      advanceToken
      let ix ← expr g
      needPunct "]"
      postfixExpr fuel (.index base ix)
    | some (.punct ".") => do
      advanceToken
      postfixExpr fuel (.member base (← needIdent))
    | some (.punct "->") => do
      advanceToken
      postfixExpr fuel (.ptrMember base (← needIdent))
    | some (.punct "++") => do
      advanceToken
      postfixExpr fuel (.postIncDec "++" base)
    | some (.punct "--") => do
      advanceToken
      postfixExpr fuel (.postIncDec "--" base)
    | _ => return base

def sizeofParenExpr : Parser Expr := do
  let value ← expr g
  needPunct ")"
  return .sizeofExpr (← postfixExpr g n n value)

-- The operand is a type only if it is not continued like an expression.
def sizeofParen : Parser Expr :=
  fun env toks =>
    match toks with
    | tok :: _ =>
      if tokenStartsTypeInEnv env tok then
        match (typeName g n <* needPunct ")") env toks with
        | none       => none
        | some reply =>
          match forceConsumed reply with
          | .ok ty env' rest =>
            if postfixContinues rest then sizeofParenExpr g n env toks
            else some <| .consumed <| .ok (.sizeofType ty) env' rest
          | .error _ => sizeofParenExpr g n env toks
      else sizeofParenExpr g n env toks
    | [] => sizeofParenExpr g n env toks

def unary : (fuel : Nat) → Parser Expr
  | 0        => outOfFuelP
  | fuel + 1 => do
    let tok ← peek
    let operand : Parser Expr := do postfixExpr g n n (← unary fuel)
    match tok.kind with
    | .punct "(" => do
      advanceToken
      if ← nextStartsType then
        let ty ← typeName g n
        needPunct ")"
        return .cast ty (← operand)
      else
        let e ← expr g
        needPunct ")"
        return e
    | .punct op =>
      if op ∈ ["++", "--", "+", "-", "!", "~", "*", "&"] then do
        advanceToken
        return .unary op (← operand)
      else failAt tok "expected expression"
    | .ident "sizeof" => do
      advanceToken
      if ← eatPunct "(" then sizeofParen g n
      else return .sizeofExpr (← operand)
    | .int s    => do advanceToken; return .int s.toList
    | .float s  => do advanceToken; return .float s.toList
    | .char s   => do advanceToken; return .char s.toList
    | .string _ => return .string (← stringLiteral n)
    | .ident s  => do
      advanceToken
      match ← lookupParserConstant s with
      | some value => return parserConstantExpr value
      | none       => return .var s
    | _ => failAt tok "expected expression"

-- The operators to the right of `lhs` that bind at least as tight as `minPrec`.
def climb (minPrec : Int) : (fuel : Nat) → (lhs : Expr) → Parser Expr
  | 0,        _   => outOfFuelP
  | fuel + 1, lhs => do
    match ← peekKind with
    | some (.punct op) =>
      if op = "?" && minPrec ≤ 2 then do
        advanceToken
        let yes ← expr g
        needPunct ":"
        let no ← g.expression 2
        climb minPrec fuel (.cond lhs yes no)
      else match binop op with
        | some (prec, assoc) =>
          if prec ≥ minPrec then do
            advanceToken
            let rhs ← g.expression (match assoc with | .right => prec | .left => prec + 1)
            climb minPrec fuel (assignNode op lhs rhs)
          else return lhs
        | none => return lhs
    | _ => return lhs

def expression (minPrec : Int) : Parser Expr := do
  climb g minPrec n (← postfixExpr g n n (← unary g n n))

def initializerList (initializerExpr : Parser Expr) : (fuel : Nat) → Parser (List Expr)
  | 0        => outOfFuelP
  | fuel + 1 => do
    if ← eatPunct "\x7d" then return []
    else
      let value ← initializerExpr
      if ← eatPunct "," then
        if ← eatPunct "\x7d" then return [value]
        else return value :: (← initializerList initializerExpr fuel)
      else
        needPunct "\x7d"
        return [value]

def initializerExpr : (fuel : Nat) → Parser Expr
  | 0        => outOfFuelP
  | fuel + 1 => do
    if ← eatPunct "\x7b" then return .initList (← initializerList (initializerExpr fuel) n)
    else assignExpr g

def arrayModifiers : List String :=
  ["static", "const", "volatile", "restrict"]

-- The modifiers of an array are rejected with the message `msg`.
def rejectArrayModifiers (msg : String) : Parser Unit := do
  let tok ← peek
  match tok.kind with
  | .ident name => if name ∈ arrayModifiers then failAt tok msg
  | _           => return ()

def arraySuffixes : (fuel : Nat) → (ty : CType) → Parser CType
  | 0,        _  => outOfFuelP
  | fuel + 1, ty => do
    if ← eatPunct "[" then
      rejectArrayModifiers "array modifiers require a parameter declarator"
      let boundExpr ← pOptional (expr g)
      needPunct "]"
      arraySuffixes fuel (.array ty boundExpr)
    else return ty

def optionalFunctionSuffix (ty : CType) : Parser CType := do
  if ← eatPunct "(" then return .func ty (paramTypes (← g.parameters)) else return ty

def groupedDeclaratorSuffixes : (fuel : Nat) → (ty : CType) → Parser CType
  | 0,        _  => outOfFuelP
  | fuel + 1, ty => do
    if ← eatPunct "(" then
      let params ← g.parameters
      groupedDeclaratorSuffixes fuel (functionSuffixType ty params)
    else arraySuffixes g n ty

def directDeclarator (declarator : CType → Parser (CType × String)) (ty : CType) :
    Parser (CType × String) := do
  if ← eatPunct "(" then
    let (innerTy, name) ← declarator ty
    needPunct ")"
    let ty' ← groupedDeclaratorSuffixes g n n innerTy
    skipAttributes n
    return (ty', name)
  else
    let name ← needIdent
    let ty' ← arraySuffixes g n ty
    skipAttributes n
    return (ty', name)

def declarator : (fuel : Nat) → (ty0 : CType) → Parser (CType × String)
  | 0,        _   => outOfFuelP
  | fuel + 1, ty0 => do
    let ty ← pointerStars n ty0
    directDeclarator g n (declarator fuel) ty

def fieldDeclarator (ty0 : CType) : Parser Field := do
  if ← eatPunct "(" then
    let ty ← pointerStars n ty0
    let name ← optionalIdent
    needPunct ")"
    let fnTail ← eatPunct "("
    let fnParams ← (if fnTail then g.parameters else pure [] : Parser _)
    let fnTy := if fnTail then functionSuffixType ty fnParams else .ptr ty
    let ty' ← arraySuffixes g n fnTy
    return .mk ty' name
  else
    let ty ← pointerStars n ty0
    let name ← optionalIdent
    let ty' ← do
      if ← eatPunct ":" then
        let _ ← assignExpr g
        pure ty
      else arraySuffixes g n ty
    return .mk ty' name

def fieldDeclarators (ty0 : CType) : Parser (List Field) := do
  let first ← fieldDeclarator g n ty0
  let rest ← pMany (do needPunct ","; fieldDeclarator g n ty0) n
  return first :: rest

def fieldDecl : Parser (List Field) := do
  let ty0 ← g.ctype
  let fields ← fieldDeclarators g n ty0
  needPunct ";"
  return fields

def aggregateBodyAfterOpen : Parser (List Field) := do
  return (← pManyUntil (eatPunct "\x7d") (fieldDecl g n) n).flatten

def aggregateType (mkType : String → CType) (mkNamed : String → List Field → CType)
    (mkInline : List Field → CType) : Parser CType := do
  advanceToken
  let name ← optionalIdent
  if ← eatPunct "\x7b" then
    let fields ← aggregateBodyAfterOpen g n
    return if name = "" then mkInline fields else mkNamed name fields
  else return mkType name

end Grammar

-- Values that are representable as `int` are `int` enumerators.
def normalizeParserConstant (value : Constant) : Constant :=
  match constantToIntChecked value with
  | some n => constantInt 4 n
  | none   => value

def nextParserConstant (value : Constant) : Option Constant :=
  let wide := constantConvert 8 value.unsigned value
  match constantBinary "+" wide (constantInt 8 1) with
  | .ok next =>
    match constantBinary ">" next wide with
    | .ok greater => if constantTrue greater then some (normalizeParserConstant next) else none
    | .error _    => none
  | .error _ => none

def takeEnumValueExprFrom (braces parens brackets : Int) (acc : List Token) :
    List Token → List Token × List Token
  | []          => (acc.reverse, [])
  | tok :: rest =>
    let outermost := braces = 0 && parens = 0 && brackets = 0
    match tok.kind with
    | .punct "," =>
      if outermost then (acc.reverse, tok :: rest)
      else takeEnumValueExprFrom braces parens brackets (tok :: acc) rest
    | .punct "\x7d" =>
      if outermost then (acc.reverse, tok :: rest)
      else takeEnumValueExprFrom (max 0 (braces - 1)) parens brackets (tok :: acc) rest
    | .punct "\x7b" => takeEnumValueExprFrom (braces + 1) parens brackets (tok :: acc) rest
    | .punct "("    => takeEnumValueExprFrom braces (parens + 1) brackets (tok :: acc) rest
    | .punct ")"    => takeEnumValueExprFrom braces (max 0 (parens - 1)) brackets (tok :: acc) rest
    | .punct "["    => takeEnumValueExprFrom braces parens (brackets + 1) (tok :: acc) rest
    | .punct "]"    => takeEnumValueExprFrom braces parens (max 0 (brackets - 1)) (tok :: acc) rest
    | _             => takeEnumValueExprFrom braces parens brackets (tok :: acc) rest

def takeEnumValueExpr : Parser (List Token) :=
  pRaw fun env toks =>
    let (exprToks, rest) := takeEnumValueExprFrom 0 0 0 [] toks
    .consumed <| .ok exprToks env rest

def ignorableEnumExprTail (tok : Token) : Bool :=
  tok.kind = .punct ")"

def enumValue (nextValue : Option Constant) : Parser Constant := do
  if ← eatPunct "=" then
    let toks ← takeEnumValueExpr
    let env ← pEnv
    match parseTypedConstExprTarget env.bits env.constants toks with
    | none                         => outOfFuelP
    | some (.error msg)            => failAt (← peek) ("invalid enum initializer: " ++ msg)
    | some (.ok (value, trailing)) =>
      if trailing.all ignorableEnumExprTail then return normalizeParserConstant value
      else match trailing with
        | tok :: _ => failAt tok ("unexpected tokens in enum initializer: " ++ tokenText tok.kind)
        | []       => failAt (← peek) "unexpected tokens in enum initializer"
  else match nextValue with
    | some value => return value
    | none       => failAt (← peek) "enum value exceeds supported 64-bit range"

def parseEnumBody : (fuel : Nat) → (nextValue : Option Constant) → Parser Unit
  | 0,        _         => outOfFuelP
  | fuel + 1, nextValue => do
    if ← eatPunct "\x7d" then return ()
    else if ← eatPunct "," then parseEnumBody fuel nextValue
    else
      let name ← needIdent
      let value ← enumValue nextValue
      bindParserConstant name value
      if ← eatPunct "," then
        if ← eatPunct "\x7d" then return ()
        else parseEnumBody fuel (nextParserConstant value)
      else needPunct "\x7d"

def enumType (n : Nat) : Parser CType := do
  advanceToken
  let name ← optionalIdent
  if ← eatPunct "\x7b" then parseEnumBody n (some (constantInt 4 0))
  return .enum name

-- An `int` that follows the other words of the type `ty` is redundant.
def optionalInt (ty : CType) : Parser CType := do
  match ← peekKind with
  | some (.ident "int") => do advanceToken; return ty
  | _                   => return ty

def optionalShortInt : Parser CType :=
  optionalInt .short

def optionalUnsignedShortInt : Parser CType :=
  optionalInt .unsignedShort

def optionalLongLongTail : Parser CType :=
  optionalInt .longLong

def optionalUnsignedLongLongInt : Parser CType :=
  optionalInt .unsignedLongLong

def signedBaseType : Parser CType := do
  match ← peekKind with
  | some (.ident "char")  => do advanceToken; return .char
  | some (.ident "short") => do advanceToken; optionalShortInt
  | some (.ident "int")   => do advanceToken; return .int
  | _                     => return .int

def unsignedLongTail : Parser CType := do
  match ← peekKind with
  | some (.ident "long") => do advanceToken; optionalUnsignedLongLongInt
  | some (.ident "int")  => do advanceToken; return .unsignedLong
  | _                    => return .unsignedLong

def unsignedBaseType : Parser CType := do
  match ← peekKind with
  | some (.ident "char")  => do advanceToken; return .unsignedChar
  | some (.ident "short") => do advanceToken; optionalUnsignedShortInt
  | some (.ident "long")  => do advanceToken; unsignedLongTail
  | some (.ident "int")   => do advanceToken; return .unsigned
  | _                     => return .unsigned

def longBaseType : Parser CType := do
  match ← peekKind with
  | some (.ident "double") => do advanceToken; return .longDouble
  | some (.ident "int")    => do advanceToken; return .long
  | some (.ident "long")   => do advanceToken; optionalLongLongTail
  | _                      => return .long

section Grammar

variable (g : Grammar) (n : Nat)

def baseType : Parser CType := do
  let tok ← peek
  match tok.kind with
  | .ident "void"     => do advanceToken; return .void
  | .ident "_Bool"    => do advanceToken; return .bool
  | .ident "int"      => do advanceToken; return .int
  | .ident "char"     => do advanceToken; return .char
  | .ident "signed"   => do advanceToken; signedBaseType
  | .ident "unsigned" => do advanceToken; unsignedBaseType
  | .ident "short"    => do advanceToken; optionalShortInt
  | .ident "long"     => do advanceToken; longBaseType
  | .ident "float"    => do advanceToken; return .float
  | .ident "double"   => do advanceToken; return .double
  | .ident "struct"   => aggregateType g n .struct .structNamed .structDef
  | .ident "union"    => aggregateType g n .union .unionNamed .unionDef
  | .ident "enum"     => enumType n
  | .ident name       => do
    advanceToken
    return (← lookupParserType name).getD (.named name)
  | _                 => failAt tok "expected type"

def ctype : Parser CType := do
  skipQualifiers n
  let ty ← baseType g n
  skipQualifiers n
  return ty

def parameterVoidOnly : Parser Bool :=
  pRaw fun env toks =>
    match toks with
    | ⟨_, .ident "void"⟩ :: ⟨_, .punct ")"⟩ :: rest => .consumed <| .ok true env rest
    | _                                             => .unconsumed <| .ok false env toks

def skipParameterArrayQualifiers : (fuel : Nat) → Parser Unit
  | 0        => outOfFuelP
  | fuel + 1 => do
    match ← peekKind with
    | some (.ident name) =>
      if name ∈ ["const", "volatile", "restrict"] then
        advanceToken
        skipParameterArrayQualifiers fuel
    | _ => return ()

def parameterArrayInner : (fuel : Nat) → (ty : CType) → Parser CType
  | 0,        _  => outOfFuelP
  | fuel + 1, ty => do
    if ← eatPunct "[" then
      rejectArrayModifiers "array parameter modifiers require the outermost dimension"
      let bound ← pOptional (assignExpr g)
      needPunct "]"
      let inner ← parameterArrayInner fuel ty
      return .array inner bound
    else return ty

-- Only the outermost array of a parameter can have qualifiers or `static`.
def parameterArraySuffix (ty : CType) : Parser CType := do
  if ← eatPunct "[" then
    let staticFirst ← eatIdent "static"
    skipParameterArrayQualifiers n
    let isStatic ← (if staticFirst then pure true else eatIdent "static" : Parser _)
    rejectArrayModifiers "expected array parameter bound"
    let bound ← (if isStatic then some <$> assignExpr g else pOptional (assignExpr g) : Parser _)
    needPunct "]"
    let inner ← parameterArrayInner g n ty
    return .array inner bound
  else return ty

def parameterDeclarator (ty0 : CType) : Parser (CType × String) := do
  if ← eatPunct "(" then
    let ty ← pointerStars n ty0
    let name ← optionalIdent
    needPunct ")"
    let fnTail ← eatPunct "("
    let fnParams ← (if fnTail then g.parameters else pure [] : Parser _)
    return (if fnTail then functionSuffixType ty fnParams else .ptr ty, name)
  else
    let ty ← pointerStars n ty0
    let name ← optionalIdent
    let fnTail ← eatPunct "("
    let fnParams ← (if fnTail then g.parameters else pure [] : Parser _)
    let tyWithFunction := if fnTail then .ptr (.func ty (paramTypes fnParams)) else ty
    let ty' ← parameterArraySuffix g n tyWithFunction
    return (ty', name)

def parameter : Parser Param := do
  let ty0 ← g.ctype
  let (ty, name) ← parameterDeclarator g n ty0
  bindParserOrdinary name
  return ⟨ty, name⟩

def parameterTail : (fuel : Nat) → Parser (List Param)
  | 0        => outOfFuelP
  | fuel + 1 => do
    if ← eatPunct "," then
      if ← eatPunct "..." then return []
      else
        let p ← parameter g n
        return p :: (← parameterTail fuel)
    else return []

def parseNonEmptyParams : Parser (List Param) := do
  let first ← parameter g n
  let rest ← parameterTail g n n
  needPunct ")"
  return first :: rest

def parametersInScope : Parser (List Param) := do
  if ← eatPunct ")" then return []
  else if ← parameterVoidOnly then return []
  else parseNonEmptyParams g n

def parameters : Parser (List Param) := do
  return adjustParameters (← withParserScope (parametersInScope g n))

def bindTypedef (item : String × CType) : Parser Unit :=
  if item.1 = "" then return () else bindParserType item.1 item.2

def typedefItem (ty0 : CType) : Parser (String × CType) := do
  let (ty, name) ← declarator g n n ty0
  let ty' ← optionalFunctionSuffix g ty
  skipAttributes n
  bindTypedef (name, ty')
  return (name, ty')

def declarationItem (ty0 : CType) : Parser Decl := do
  let (ty, name) ← declarator g n n ty0
  skipAttributes n
  bindParserOrdinary name
  let init ← pOptional do
    let _ ← eatPunct "="
    initializerExpr g n n
  return ⟨ty, name, init⟩

end Grammar
end Parser

-- The fuel bounds the nesting of the recursion, and the length of every loop.
def grammar : (fuel : Nat) → Grammar
  | 0        => ⟨fun _ => outOfFuelP, outOfFuelP, outOfFuelP⟩
  | fuel + 1 => {
      expression := Parser.expression (grammar fuel) fuel
      ctype      := Parser.ctype (grammar fuel) fuel
      parameters := Parser.parameters (grammar fuel) fuel
    }

end Hcc
