import Hcc.ConstExpr.Basic
import Hcc.Preprocessor.Basic
import Hcc.Preprocessor.Directive

namespace Hcc

def macroName : Macro → String
  | .object name _ | .function name _ _ _ => name

def lexReplacement (sp : Span) (text : List Char) : Except PreprocessError (List Token) :=
  match lexC (.ofList ("__hcc_macro_dummy ".toList ++ dropSpaces text)) with
  | .error e     => .error ⟨sp.start, e.message⟩
  | .ok (_ :: toks) => .ok toks
  | .ok []       => .ok []

def takeMacroParams.go (sp : Span) (depth : Int) (acc : List Char) :
    List Char → Except PreprocessError (List Char × List Char)
  | []        => .error ⟨sp.start, "unterminated macro parameter list"⟩
  | ')' :: xs => if depth = 1 then .ok (acc.reverse, xs) else go sp (depth - 1) (')' :: acc) xs
  | '(' :: xs => go sp (depth + 1) ('(' :: acc) xs
  | c :: xs   => go sp depth (c :: acc) xs

def takeMacroParams (sp : Span) : List Char → Except PreprocessError (List Char × List Char) :=
  takeMacroParams.go sp 1 []

def splitCommas.go (depth : Int) (current : List Char) (acc : List (List Char)) :
    List Char → List (List Char)
  | []        => (current.reverse :: acc).reverse
  | ',' :: xs =>
    if depth = 0 then go depth [] (current.reverse :: acc) xs else go depth (',' :: current) acc xs
  | '(' :: xs => go (depth + 1) ('(' :: current) acc xs
  | ')' :: xs => go (max 0 (depth - 1)) (')' :: current) acc xs
  | c :: xs   => go depth (c :: current) acc xs

def splitCommas : List Char → List (List Char) :=
  splitCommas.go 0 [] []

def parseMacroParams.parsePieces (sp : Span) (params : List String) (variadic : Option String) :
    List (List Char) → Except PreprocessError (List String × Option String)
  | []            => .ok (params.reverse, variadic)
  | piece :: rest =>
    if piece = "...".toList then parsePieces sp params (some "__VA_ARGS__") rest
    else if "...".toList.isSuffixOf piece then
      let name := trim (piece.take (piece.length - 3))
      if name.all isIdentChar && !name.isEmpty then parsePieces sp params (some (.ofList name)) rest
      else .error ⟨sp.start, "bad variadic macro parameter: " ++ .ofList piece⟩
    else if piece.all isIdentChar && !piece.isEmpty then
      parsePieces sp (.ofList piece :: params) variadic rest
    else .error ⟨sp.start, "bad macro parameter: " ++ .ofList piece⟩

def parseMacroParams (sp : Span) (text : List Char) :
    Except PreprocessError (List String × Option String) :=
  parseMacroParams.parsePieces sp [] none <| ((splitCommas text).map trim).filter (!·.isEmpty)

def parseFunctionMacro (sp : Span) (name : String) (text : List Char) :
    Except PreprocessError Macro := do
  let (paramText, bodyText) ← takeMacroParams sp text
  let (params, variadic) ← parseMacroParams sp paramText
  return .function name params variadic (← lexReplacement sp bodyText)

def parseMacroDefinition (sp : Span) (text : List Char) : Except PreprocessError Macro :=
  let unnamed := .error ⟨sp.start, "#define without macro name"⟩
  match dropSpaces text with
  | []      => unnamed
  | c :: cs =>
    if isIdentStart c then
      let name := String.ofList <| (c :: cs).takeWhile isIdentChar
      match (c :: cs).dropWhile isIdentChar with
      | '(' :: rest => parseFunctionMacro sp name rest
      | afterName   => .object name <$> lexReplacement sp afterName
    else unnamed

def defineMacro (macros : Macros) (sp : Span) (text : List Char) : Except PreprocessError Macros := do
  let definition ← parseMacroDefinition sp text
  return symbolMapInsert (macroName definition) definition macros

def definedToken (macros : Macros) (sp : Span) (name : String) : Token :=
  ⟨sp, .int (if symbolMapMember name macros then "1" else "0")⟩

def replaceDefinedOperators (macros : Macros) : List Token → Except PreprocessError (List Token)
  | [] => .ok []
  | ⟨sp, .ident "defined"⟩ :: ⟨_, .punct "("⟩ :: ⟨_, .ident name⟩ :: ⟨_, .punct ")"⟩ :: xs =>
    (definedToken macros sp name :: ·) <$> replaceDefinedOperators macros xs
  | ⟨sp, .ident "defined"⟩ :: ⟨_, .ident name⟩ :: xs =>
    (definedToken macros sp name :: ·) <$> replaceDefinedOperators macros xs
  | ⟨sp, .ident "defined"⟩ :: _ => .error ⟨sp.start, "bad defined operator in #if expression"⟩
  | tok :: xs => (tok :: ·) <$> replaceDefinedOperators macros xs

-- The literal of a string.
def showString.escape (next : Option Char) (c : Char) : List Char :=
  let names := ["NUL", "SOH", "STX", "ETX", "EOT", "ENQ", "ACK", "a", "b", "t", "n", "v", "f", "r",
    "SO", "SI", "DLE", "DC1", "DC2", "DC3", "DC4", "NAK", "SYN", "ETB", "CAN", "EM", "SUB", "ESC", "FS",
    "GS", "RS", "US"]
  let code := '\\' :: (toString c.toNat).toList
  if c = '"' || c = '\\' then ['\\', c]
  else if c.toNat = 127 then "\\DEL".toList
  else if c.toNat > 127 then if next.any isDigitChar then code ++ ['\\', '&'] else code
  else match names[c.toNat]? with
    | some "SO" => if next = some 'H' then "\\SO\\&".toList else "\\SO".toList
    | some name => '\\' :: name.toList
    | none      => [c]

def showString.go : List Char → List Char
  | []      => ['"']
  | c :: cs => showString.escape cs.head? c ++ go cs

def showString (text : String) : String :=
  .ofList ('"' :: showString.go text.toList)

def evalIf (macros : Macros) (fuel : Nat) (text : List Char) : Expand Bool := do
  let toks ← match lexC (.ofList text) with
    | .error e     => throw ⟨e.pos, e.message⟩
    | .ok result   => pure result
  let replaced ← replaceDefinedOperators macros toks
  let expanded ← expandTokens macros fuel replaced
  match parsePPConstExpr expanded with
  | none                       => Fueled.outOfFuel
  | some (.ok (value, []))     => return value
  | some (.ok (_, tok :: _))   =>
    throw ⟨tok.span.start, "trailing tokens in #if expression near " ++ showString (tokenText tok.kind)⟩
  | some (.error msg)          => throw ⟨⟨1, 1⟩, msg⟩

-- The condition of an ineligible group is neither parsed nor expanded.
def evalEligibleIf (eligible : Bool) (macros : Macros) (fuel : Nat) (text : List Char) : Expand Bool :=
  if eligible then evalIf macros fuel text else return false

def elifEligible : List IfFrame → Bool
  | []         => false
  | frame :: _ => frame.parent && !frame.taken

def ignoredDirectives : List String :=
  ["#line", "#pragma"]

def startIf (frames : List IfFrame) (condition : Bool) : List IfFrame :=
  (applyIfDirective frames (.if condition)).getD frames

def replaceElse (sp : Span) (frames : List IfFrame) : Except PreprocessError (List IfFrame) :=
  match applyIfDirective frames .else with
  | none         => .error ⟨sp.start, "#else without #if"⟩
  | some frames' => .ok frames'

def replaceElif (sp : Span) (frames : List IfFrame) (condition : Bool) :
    Except PreprocessError (List IfFrame) :=
  match applyIfDirective frames (.elif condition) with
  | none         => .error ⟨sp.start, "#elif without #if"⟩
  | some frames' => .ok frames'

def popIf (sp : Span) (frames : List IfFrame) : Except PreprocessError (List IfFrame) :=
  match applyIfDirective frames .endif with
  | none         => .error ⟨sp.start, "#endif without #if"⟩
  | some frames' => .ok frames'

-- The macros and conditional groups after a directive.
def handleDirective (macros : Macros) (frames : List IfFrame) (fuel : Nat) (sp : Span) (text : String) :
    Expand (Macros × List IfFrame) :=
  let ⟨name, rest⟩ := parseDirective text
  match name with
  | "define" =>
    if ifStackActive frames then return (← defineMacro macros sp rest, frames)
    else return (macros, frames)
  | "undef" =>
    if ifStackActive frames then
      match directiveName rest with
      | some name => return (symbolMapDelete name macros, frames)
      | none      => throw ⟨sp.start, "#undef without macro name"⟩
    else return (macros, frames)
  | "include" =>
    if ifStackActive frames then throw ⟨sp.start, "unresolved active #include"⟩
    else return (macros, frames)
  | "ifdef" =>
    match directiveName rest with
    | some name => return (macros, startIf frames (symbolMapMember name macros))
    | none      => throw ⟨sp.start, "#ifdef without macro name"⟩
  | "ifndef" =>
    match directiveName rest with
    | some name => return (macros, startIf frames (!symbolMapMember name macros))
    | none      => throw ⟨sp.start, "#ifndef without macro name"⟩
  | "if"   => return (macros, startIf frames (← evalEligibleIf (ifStackActive frames) macros fuel rest))
  | "elif" => do
    let condition ← evalEligibleIf (elifEligible frames) macros fuel rest
    return (macros, ← replaceElif sp frames condition)
  | "else"  => return (macros, ← replaceElse sp frames)
  | "endif" => return (macros, ← popIf sp frames)
  | ""      => return (macros, frames)
  | name    =>
    if ("#" ++ name) ∈ ignoredDirectives || name.toList.all isDigitChar then return (macros, frames)
    else if ifStackActive frames then throw ⟨sp.start, "unsupported directive: #" ++ name⟩
    else return (macros, frames)

def preprocess.go : (fuel : Nat) → Macros → List IfFrame → (rest : List PPToken) →
    (acc : List PPToken) → Expand (List Token)
  | 0,        _,      _,      _,    _   => .outOfFuel
  | fuel + 1, macros, frames, rest, acc =>
    match rest with
    | [] =>
      if frames.isEmpty then return acc.map PPToken.token
      else throw ⟨⟨1, 1⟩, "unterminated conditional directive"⟩
    | tok :: xs =>
      match tok.token.kind with
      | .directive text => do
        let (macros', frames') ← handleDirective macros frames fuel tok.token.span text
        go fuel macros' frames' xs acc
      | _ =>
        if ifStackActive frames then do
          let (expanded, rest', _) ← expandNextSource (expandSource macros fuel) macros (tok :: xs)
          go fuel macros frames rest' (acc ++ expanded)
        else go fuel macros frames xs acc

def preprocess (fuel : Nat) (toks : List Token) : Expand (List Token) :=
  preprocess.go fuel symbolMapEmpty [] (sourceFromTokens toks) []

end Hcc
