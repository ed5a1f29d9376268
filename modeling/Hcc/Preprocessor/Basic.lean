import Hcc.Lexer.Basic
import Hcc.Library.Fuel
import Hcc.SymbolTable.Basic

namespace Hcc

structure PreprocessError where
  pos     : SrcPos
  message : String
deriving DecidableEq, Repr

inductive Macro
  | object   (name : String) (body : List Token)
  | function (name : String) (params : List String) (variadic : Option String) (body : List Token)
deriving DecidableEq, Repr

-- `hidden` are the macros that must not be expanded at this token anymore.
structure PPToken where
  hidden : List String
  space  : Bool
  token  : Token
deriving DecidableEq, Repr

structure Expansion where
  tokens   : List PPToken
  trailing : Bool
deriving DecidableEq, Repr

abbrev Expand := Fueled PreprocessError

-- The prescanned tokens of an argument are only computed on demand. So an argument can be bound even
-- if its prescan fails.
structure MacroArg where
  raw      : List PPToken
  expanded : Expand Expansion

abbrev Macros := SymbolMap Macro
abbrev MacroArgs := SymbolMap MacroArg

inductive MacroPiece
  | token (tok : PPToken)
  | empty (space : Bool)
deriving DecidableEq, Repr

def intersect (xs ys : List String) : List String :=
  xs.filter (· ∈ ys)

def union (xs ys : List String) : List String :=
  xs ++ xs.foldl (fun ys x => ys.erase x) ys.eraseDups

def hideToken (names : List String) (tok : PPToken) : PPToken :=
  { tok with hidden := union names tok.hidden }

def leadingSpace (space : Bool) : List PPToken → List PPToken
  | []          => []
  | tok :: rest => { tok with space := space } :: rest

def addLeadingSpace (space : Bool) : List PPToken → List PPToken
  | []          => []
  | tok :: rest => { tok with space := space || tok.space } :: rest

def sourceFromTokens.go (stop : SrcPos) : List Token → List PPToken
  | []          => []
  | tok :: rest => ⟨[], stop ≠ tok.span.start, tok⟩ :: go tok.span.stop rest

def sourceFromTokens : List Token → List PPToken :=
  sourceFromTokens.go ⟨0, 0⟩

-- The positions of a definition only encode adjacency, so the tokens of a body are relocated.
def replacementTokens (sp : Span) (body : List Token) : List PPToken :=
  (sourceFromTokens body).map fun tok => { tok with token := ⟨sp, tok.token.kind⟩ }

def sourceSpelling.text : List PPToken → String
  | []        => ""
  | tok :: xs => (if tok.space then " " else "") ++ tokenText tok.token.kind ++ text xs

def sourceSpelling (toks : List PPToken) : String :=
  sourceSpelling.text (leadingSpace false toks)

def escapeString : List Char → List Char
  | []         => []
  | '\\' :: xs => '\\' :: '\\' :: escapeString xs
  | '"' :: xs  => '\\' :: '"' :: escapeString xs
  | c :: xs    => c :: escapeString xs

def stringifyTokens (toks : List PPToken) : String :=
  "\"" ++ String.ofList (escapeString (sourceSpelling toks).toList) ++ "\""

def pasteTokens (sp : Span) (left right : PPToken) : Except PreprocessError PPToken :=
  match lexC (tokenText left.token.kind ++ tokenText right.token.kind) with
  | .ok [tok] => .ok ⟨intersect left.hidden right.hidden, left.space, ⟨sp, tok.kind⟩⟩
  | .ok _     => .error ⟨sp.start, "token paste did not form one token"⟩
  | .error e  => .error ⟨sp.start, e.message⟩

def pastePieces (sp : Span) (left right : MacroPiece) : Except PreprocessError MacroPiece :=
  match left, right with
  | .empty space, .empty _   => .ok (.empty space)
  | .empty space, .token tok => .ok (.token { tok with space := space })
  | .token _,     .empty _   => .ok left
  | .token a,     .token b   => .token <$> pasteTokens sp a b

def removePlacemarkers.go (pending : Bool) (acc : List PPToken) : List MacroPiece → Expansion
  | []                => ⟨acc, pending⟩
  | .empty space :: xs => go (pending || space) acc xs
  | .token tok :: xs   => go false (acc ++ addLeadingSpace pending [tok]) xs

def removePlacemarkers (pieces : List MacroPiece) : Expansion :=
  removePlacemarkers.go false [] pieces

def substitutionPieces (space : Bool) (e : Expansion) : List MacroPiece :=
  match e.tokens with
  | [] => [.empty (space || e.trailing)]
  | _  =>
    (addLeadingSpace space e.tokens).map .token ++ if e.trailing then [.empty true] else []

-- The arguments of an invocation, the commas that separate them, the names that are hidden at the
-- closing parenthesis, and the tokens that follow it.
abbrev Invocation := List (List PPToken) × List PPToken × List String × List PPToken

def collectInvocationArgs.go (sp : Span) (depth : Int) (current : List PPToken)
    (args : List (List PPToken)) (commas : List PPToken) :
    List PPToken → Except PreprocessError Invocation
  | []        => .error ⟨sp.start, "unterminated macro invocation"⟩
  | tok :: xs =>
    match tok.token.kind with
    | .punct ")" =>
      if depth = 1 then
        let finalArgs :=
          if args.isEmpty && current.isEmpty then [] else (current.reverse :: args).reverse
        .ok (finalArgs, commas.reverse, tok.hidden, xs)
      else go sp (depth - 1) (tok :: current) args commas xs
    | .punct "(" => go sp (depth + 1) (tok :: current) args commas xs
    | .punct "," =>
      if depth = 1 then go sp depth [] (current.reverse :: args) (tok :: commas) xs
      else go sp depth (tok :: current) args commas xs
    | _ => go sp depth (tok :: current) args commas xs

def collectInvocationArgs (sp : Span) : List PPToken → Except PreprocessError Invocation :=
  collectInvocationArgs.go sp 1 [] [] []

def joinVariadicArgs : (args : List (List PPToken)) → (commas : List PPToken) → List PPToken
  | [],            _             => []
  | first :: rest, comma :: more => first ++ comma :: joinVariadicArgs rest more
  | first :: _,    []            => first ++ []

def boundArg (args : MacroArgs) (tok : PPToken) : Option MacroArg :=
  match tok.token.kind with
  | .ident name => symbolMapLookup name args
  | _           => none

-- The operand of `##` as it is spelled in the invocation.
def rawPieces (args : MacroArgs) (tok : PPToken) : List MacroPiece :=
  match boundArg args tok with
  | some arg => substitutionPieces tok.space ⟨leadingSpace false arg.raw, false⟩
  | none     => [.token tok]

-- The accumulated pieces after pasting the last ones to the `next` ones. A comma in front of a
-- variadic argument is not pasted, but dropped if the argument is empty.
def pasteWithPrevious (pasteSp : Span) (previous next before : List MacroPiece) :
    Except PreprocessError (List MacroPiece) :=
  let paste : Except PreprocessError (List MacroPiece) :=
    match previous, next with
    | _,  []      => .ok (previous.reverse ++ before)
    | [], _       => .ok (next.reverse ++ before)
    | _,  n :: ns =>
      match previous.reverse with
      | prev :: front => do
        let pasted ← pastePieces pasteSp prev n
        .ok (ns.reverse ++ pasted :: front ++ before)
      | []            => .ok (next.reverse ++ before)
  match previous with
  | [.token tok] =>
    if tok.token.kind = .punct "," then
      match next with
      | [.empty _] => .ok (.empty tok.space :: before)
      | _          => .ok (next.reverse ++ .token tok :: before)
    else paste
  | _ => paste

def substituteMacroBody.go (args : MacroArgs) (acc : List MacroPiece) :
    List PPToken → Expand Expansion
  | []          => pure (removePlacemarkers acc.reverse)
  | tok :: rest =>
    match tok.token.kind with
    | .punct "#" =>
      match rest with
      | []         => go args (.token tok :: acc) []
      | next :: xs =>
        match boundArg args next with
        | some arg =>
          let text := stringifyTokens arg.raw
          go args (.token ⟨[], tok.space, ⟨next.token.span, .string text⟩⟩ :: acc) xs
        | none     => go args (.token tok :: acc) (next :: xs)
    | .punct "##" =>
      let paste := (pasteWithPrevious tok.token.span (acc.take 1) · acc.tail)
      match rest with
      | []         => do go args (← paste []) []
      | next :: xs => do go args (← paste (rawPieces args next)) xs
    | _ =>
      match boundArg args tok with
      | none     => go args (.token tok :: acc) rest
      | some arg =>
        let substitute := fun e => (substitutionPieces tok.space e).reverse ++ acc
        match rest with
        | []         => do go args (substitute (← arg.expanded)) []
        | next :: xs =>
          if next.token.kind = .punct "##" then
            let paste := (pasteWithPrevious next.token.span (rawPieces args tok) · acc)
            match xs with
            | []             => do go args (← paste []) []
            | operand :: xs' => do go args (← paste (rawPieces args operand)) xs'
          else do go args (substitute (← arg.expanded)) (next :: xs)

def substituteMacroBody (args : MacroArgs) (body : List PPToken) : Expand Expansion :=
  substituteMacroBody.go args [] body

-- The expanded tokens, the remaining source and whether separation is retained at its end.
abbrev NextSource := List PPToken × List PPToken × Bool

def rescanReplacement (space : Bool) (e : Expansion) (rest : List PPToken) : NextSource :=
  let pending := e.trailing || (e.tokens.isEmpty && space)
  ([], addLeadingSpace space e.tokens ++ addLeadingSpace pending rest, pending && rest.isEmpty)

section

-- The prescan of an argument.
variable (prescan : List PPToken → Expand Expansion)

def bindMacroArgs.makeArg (raw : List PPToken) : MacroArg :=
  ⟨raw, prescan (leadingSpace false raw)⟩

def bindMacroArgs.bindFixed (sp : Span) (argMap : MacroArgs) :
    (params : List String) → (args : List (List PPToken)) → Except PreprocessError MacroArgs
  | [],      []      => .ok argMap
  | p :: ps, a :: as =>
    bindFixed sp (symbolMapInsert p (bindMacroArgs.makeArg prescan a) argMap) ps as
  | _,       _       => .error ⟨sp.start, "wrong number of macro arguments"⟩

def bindMacroArgs (sp : Span) (params : List String) (variadic : Option String)
    (args : List (List PPToken)) (commas : List PPToken) : Except PreprocessError MacroArgs :=
  let fixedCount := params.length
  let args' := if fixedCount = 1 && variadic = none && args.isEmpty then [[]] else args
  if args'.length < fixedCount || (variadic = none && args'.length ≠ fixedCount) then
    .error ⟨sp.start, "wrong number of macro arguments"⟩
  else do
    let fixed ← bindMacroArgs.bindFixed prescan sp symbolMapEmpty params (args'.take fixedCount)
    match variadic with
    | none      => .ok fixed
    | some name =>
      let raw := joinVariadicArgs (args'.drop fixedCount) (commas.drop fixedCount)
      .ok (symbolMapInsert name (bindMacroArgs.makeArg prescan raw) fixed)

def expandInvocation (original : PPToken) (name : String) (params : List String)
    (variadic : Option String) (body : List Token) (afterOpen : List PPToken) :
    Expand NextSource := do
  let sp := original.token.span
  let (args, commas, closeHidden, rest) ← collectInvocationArgs sp afterOpen
  let bound ← bindMacroArgs prescan sp params variadic args commas
  let e ← substituteMacroBody bound (leadingSpace original.space (replacementTokens sp body))
  -- The closing parenthesis may come from a different expansion. Only names that are hidden at both
  -- ends constrain the replacement.
  let inherited := name :: intersect original.hidden closeHidden
  return rescanReplacement original.space ⟨e.tokens.map (hideToken inherited), e.trailing⟩ rest

def expandNextSource (macros : Macros) : List PPToken → Expand NextSource
  | []               => pure ([], [], false)
  | original :: rest =>
    match original.token.kind with
    | .ident name =>
      if name ∈ original.hidden then pure ([original], rest, false)
      else match symbolMapLookup name macros with
        | none                => pure ([original], rest, false)
        | some (.object _ body) =>
          let replaced := leadingSpace original.space (replacementTokens original.token.span body)
          pure (rescanReplacement original.space
            ⟨replaced.map (hideToken (name :: original.hidden)), false⟩ rest)
        | some (.function _ params variadic body) =>
          match rest with
          | ⟨_, _, ⟨_, .punct "("⟩⟩ :: afterOpen =>
            expandInvocation prescan original name params variadic body afterOpen
          | _ => pure ([original], rest, false)
    | _ => pure ([original], rest, false)

end

def expandSource.go (macros : Macros) : (fuel : Nat) → (rest : List PPToken) → (trailing : Bool) →
    (acc : List PPToken) → Expand Expansion
  | 0,        _,    _,        _   => .outOfFuel
  | fuel + 1, rest, trailing, acc =>
    match rest with
    | [] => pure ⟨acc, trailing⟩
    | _  => do
      let (expanded, rest', trailing') ← expandNextSource (go macros fuel · false []) macros rest
      go macros fuel rest' (trailing || trailing') (acc ++ expanded)

def expandSource (macros : Macros) (fuel : Nat) (toks : List PPToken) : Expand Expansion :=
  expandSource.go macros fuel toks false []

def expandTokens (macros : Macros) (fuel : Nat) (toks : List Token) : Expand (List Token) := do
  let e ← expandSource macros fuel (sourceFromTokens toks)
  return e.tokens.map PPToken.token

end Hcc
