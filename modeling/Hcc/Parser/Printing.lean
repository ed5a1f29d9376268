import Hcc.Parser.Grammar

namespace Hcc

-- The precedence of the operators that bind tighter than the binary ones.
def castPrec : Int := 13
def unaryPrec : Int := 14
def suffixPrec : Int := 15

def prefixOperators : List String :=
  ["++", "--", "+", "-", "!", "~", "*", "&"]

def compoundOperators : List String :=
  ["+", "-", "*", "/", "%", "<<", ">>", "&", "^", "|"]

def typeWords : List (CType × List String) := [
  (.void, ["void"]),
  (.bool, ["_Bool"]),
  (.char, ["char"]),
  (.char, ["signed", "char"]),
  (.unsignedChar, ["unsigned", "char"]),
  (.short, ["short"]),
  (.unsignedShort, ["unsigned", "short"]),
  (.int, ["int"]),
  (.unsigned, ["unsigned"]),
  (.long, ["long"]),
  (.unsignedLong, ["unsigned", "long"]),
  (.longLong, ["long", "long"]),
  (.unsignedLongLong, ["unsigned", "long", "long"]),
  (.float, ["float"]),
  (.double, ["double"]),
  (.longDouble, ["long", "double"])
]

def typeTags : List (String × (String → CType)) :=
  [("struct", .struct), ("union", .union), ("enum", .enum)]

-- The identifiers that the parser never looks up as the name of a type.
def reservedTypeWords : List String :=
  Parser.builtinTypeNames ++ Parser.storageAndTypeQualifiers ++ Parser.unsupportedQualifiers ++
    ["__attribute__", "__extension__"]

-- The spelling of a type by words, tags, typedefs and stars.
inductive SpellsType (env : ParserEnv) : CType → List Token → Prop
  | words : (type, words) ∈ typeWords → toks.map Token.kind = words.map .ident → SpellsType env type toks
  | tag (name : String) : (keyword, type) ∈ typeTags →
    SpellsType env (type name) [⟨s₁, .ident keyword⟩, ⟨s₂, .ident name⟩]
  | typedef : scopeMapLookup name env.bindings = some (.type type) → name ∉ reservedTypeWords →
    SpellsType env type [⟨s, .ident name⟩]
  | ptr : SpellsType env type toks → SpellsType env (.ptr type) (toks ++ [⟨s, .punct "*"⟩])

-- An identifier of an expression is no operator, no type and no enumerator.
structure IsOrdinary (env : ParserEnv) (name : String) : Prop where
  ne_sizeof    : name ≠ "sizeof"
  not_type     : ∀ s, Parser.tokenStartsTypeInEnv env ⟨s, .ident name⟩ = false
  not_constant : ∀ value, scopeMapLookup name env.bindings ≠ some (.constant value)

def separate (comma : Token) : List (List Token) → List Token
  | []           => []
  | toks :: rest => toks ++ rest.flatMap (comma :: ·)

-- The tokens of an expression, as an operand of an operator of the given precedence. Parentheses are
-- needed around operators that bind less tight.
inductive Prints (env : ParserEnv) : (prec : Int) → Expr → List Token → Prop
  | group : Prints env 0 e toks → Prints env prec e (⟨s₁, .punct "("⟩ :: toks ++ [⟨s₂, .punct ")"⟩])
  | int (text : String) : Prints env prec (.int text.toList) [⟨s, .int text⟩]
  | float (text : String) : Prints env prec (.float text.toList) [⟨s, .float text⟩]
  | char (text : String) : Prints env prec (.char text.toList) [⟨s, .char text⟩]
  | string (bytes : List Int) : (∀ byte ∈ bytes, 0 ≤ byte ∧ byte < 256) →
    text.toList = '"' :: bytes.flatMap Parser.hexEscape ++ ['"'] →
    Prints env prec (.string text.toList) [⟨s, .string text⟩]
  | var : IsOrdinary env name → Prints env prec (.var name) [⟨s, .ident name⟩]
  | call (args : List (Expr × List Token)) : prec ≤ suffixPrec → Prints env suffixPrec e toks →
    (∀ arg ∈ args, Prints env 1 arg.1 arg.2) →
    Prints env prec (.call e (args.map Prod.fst))
      (toks ++ ⟨s₁, .punct "("⟩ :: separate ⟨s₂, .punct ","⟩ (args.map Prod.snd) ++ [⟨s₃, .punct ")"⟩])
  | index : prec ≤ suffixPrec → Prints env suffixPrec e toks → Prints env 0 ix ixToks →
    Prints env prec (.index e ix) (toks ++ ⟨s₁, .punct "["⟩ :: ixToks ++ [⟨s₂, .punct "]"⟩])
  | member (name : String) : prec ≤ suffixPrec → Prints env suffixPrec e toks →
    Prints env prec (.member e name) (toks ++ [⟨s₁, .punct "."⟩, ⟨s₂, .ident name⟩])
  | ptrMember (name : String) : prec ≤ suffixPrec → Prints env suffixPrec e toks →
    Prints env prec (.ptrMember e name) (toks ++ [⟨s₁, .punct "->"⟩, ⟨s₂, .ident name⟩])
  | postIncDec : prec ≤ suffixPrec → op ∈ ["++", "--"] → Prints env suffixPrec e toks →
    Prints env prec (.postIncDec op e) (toks ++ [⟨s, .punct op⟩])
  | unary : prec ≤ unaryPrec → op ∈ prefixOperators → Prints env castPrec e toks →
    Prints env prec (.unary op e) (⟨s, .punct op⟩ :: toks)
  | sizeofExpr : prec ≤ unaryPrec → Parser.parserEnvHasType "sizeof" env = false → Prints env unaryPrec e toks →
    Prints env prec (.sizeofExpr e) (⟨s, .ident "sizeof"⟩ :: toks)
  | cast : prec ≤ castPrec → SpellsType env type typeToks → Prints env castPrec e toks →
    Prints env prec (.cast type e) (⟨s₁, .punct "("⟩ :: typeToks ++ ⟨s₂, .punct ")"⟩ :: toks)
  | binary : prec ≤ p → Parser.binop op = some (p, .left) → Prints env p l lToks → Prints env (p + 1) r rToks →
    Prints env prec (.binary op l r) (lToks ++ ⟨s, .punct op⟩ :: rToks)
  | cond : prec ≤ 2 → Prints env 3 c cToks → Prints env 0 yes yesToks → Prints env 2 no noToks →
    Prints env prec (.cond c yes no) (cToks ++ ⟨s₁, .punct "?"⟩ :: yesToks ++ ⟨s₂, .punct ":"⟩ :: noToks)
  | assign : prec ≤ 1 → Prints env 2 l lToks → Prints env 1 r rToks →
    Prints env prec (.assign l r) (lToks ++ ⟨s, .punct "="⟩ :: rToks)
  | compoundAssign : prec ≤ 1 → op ∈ compoundOperators → Prints env 2 l lToks → Prints env 1 r rToks →
    Prints env prec (.compoundAssign op l r) (lToks ++ ⟨s, .punct (op ++ "=")⟩ :: rToks)

end Hcc
